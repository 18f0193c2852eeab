import Flowchart.Journal
import Flowchart.Problem

/-!
# Demonstration scenarios

Four small problems: a data race, two independent printers, a thread that reads input, and one that
waits forever.
-/

namespace Flowchart.Demo

/-- The problems that can be demonstrated. -/
inductive Scenario where
  /-- Two writers and a reader of one variable; what is printed depends on the schedule. -/
  | race
  /-- Two threads print the same constant from variables of their own. -/
  | independent
  /-- One thread reads the input, another one prints a constant. -/
  | reader
  /-- A thread waits for a flag that nobody sets, so that there is no end to the states. -/
  | spin
  deriving DecidableEq

namespace Scenario

/-- All scenarios. -/
def all : List Scenario :=
  [race, independent, reader, spin]

/-- The word by which a scenario is chosen. -/
def keyword : Scenario → String
  | race => "race"
  | independent => "independent"
  | reader => "reader"
  | spin => "spin"

/-- The title of a scenario. -/
def title : Scenario → String
  | race => "Race"
  | independent => "Independent"
  | reader => "Reader"
  | spin => "Spin"

/-- The scenario chosen by a word. -/
def ofKeyword? (word : String) : Option Scenario :=
  all.find? (·.keyword = word)

end Scenario

/-- A program to be built: its name, its variables, and the blocks of its threads. -/
structure Outline where
  /-- The name of the program. -/
  name : String
  /-- The variables to declare. -/
  declared : List String
  /-- The threads by number, with their blocks. -/
  threads : List (ThreadId × List Block)

namespace Outline

/-- Build the program of an outline. -/
def program (o : Outline) : Except EditError Program :=
  o.threads.foldlM (fun p (id, blocks) => do p.attach (← Thread.ofBlocks id blocks))
    (o.declared.foldl Program.declare (.empty o.name))

/-- The journal of building the program. -/
def events (o : Outline) : List Event :=
  o.threads.flatMap fun (id, blocks) => (Thread.empty id).insertionEvents blocks

end Outline

/-- A writer that stores 1 if it found zero and 2 otherwise, by way of a variable of its own. -/
def writer (own : String) : List Block :=
  [⟨⟨0⟩, .start ⟨1⟩⟩,
   ⟨⟨1⟩, .assign own (.copy "x") ⟨2⟩⟩,
   ⟨⟨2⟩, .branch ⟨own, .equal, 0⟩ ⟨3⟩ ⟨4⟩⟩,
   ⟨⟨3⟩, .assign "x" (.literal 1) ⟨5⟩⟩,
   ⟨⟨4⟩, .assign "x" (.literal 2) ⟨5⟩⟩,
   ⟨⟨5⟩, .finish⟩]

/-- A thread that stores a constant and prints it. -/
def printer (name : String) (constant : UInt64) : List Block :=
  [⟨⟨0⟩, .start ⟨1⟩⟩,
   ⟨⟨1⟩, .assign name (.literal constant) ⟨2⟩⟩,
   ⟨⟨2⟩, .print name ⟨3⟩⟩,
   ⟨⟨3⟩, .finish⟩]

namespace Scenario

/-- The program of a scenario. -/
def outline : Scenario → Outline
  | race =>
    { name := "racy writers"
      declared := ["x", "t1", "t2"]
      threads := [(⟨1⟩, writer "t1"), (⟨2⟩, writer "t2"),
        (⟨3⟩, [⟨⟨0⟩, .start ⟨1⟩⟩, ⟨⟨1⟩, .print "x" ⟨2⟩⟩, ⟨⟨2⟩, .finish⟩])] }
  | independent =>
    { name := "independent printers"
      declared := ["a", "b"]
      threads := [(⟨1⟩, printer "a" 42), (⟨2⟩, printer "b" 42)] }
  | reader =>
    { name := "reader"
      declared := ["x", "c"]
      threads := [
        (⟨1⟩, [⟨⟨0⟩, .start ⟨1⟩⟩, ⟨⟨1⟩, .input "x" ⟨2⟩⟩, ⟨⟨2⟩, .print "x" ⟨3⟩⟩, ⟨⟨3⟩, .finish⟩]),
        (⟨2⟩, printer "c" 7)] }
  | spin =>
    { name := "spin"
      declared := ["f"]
      threads := [
        (⟨1⟩, [⟨⟨0⟩, .start ⟨1⟩⟩, ⟨⟨1⟩, .branch ⟨"f", .equal, 1⟩ ⟨2⟩ ⟨1⟩⟩, ⟨⟨2⟩, .finish⟩])] }

/-- The input of a scenario. -/
def input : Scenario → List Int64
  | reader => [5]
  | _ => []

/-- The output expected in a scenario. -/
def expected : Scenario → List Value
  | race => [2]
  | independent => [42, 42]
  | reader => [5, 7]
  | spin => []

/-- The problem of a scenario. -/
def problem (s : Scenario) : Except EditError Problem :=
  s.outline.program.map fun program => { program, input := s.input, expected := s.expected }

end Scenario

end Flowchart.Demo
