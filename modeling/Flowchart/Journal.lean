import Flowchart.Block.Text
import Flowchart.Coverage.Census
import Flowchart.Coverage.Level
import Flowchart.Exploration.Basic

/-!
# The journal

What the activities of this library report about themselves while they are at work. The entries of
an activity are computed from what it was given and what it found, in the order in which they
arise.

* `Event`: one entry, with its level, its topic and its text.
* `Thread.insertionEvents`, `Program.stepEvents`, `Problem.runEvents`, `Problem.totalEvents`,
  `Problem.scheduleEvents`: the entries of each activity.
-/

namespace Flowchart

/-- How much an entry of the journal matters. -/
inductive Level where
  | error
  | warn
  | info
  | debug
  | trace
  deriving DecidableEq

namespace Level

/-- The levels in descending order of importance. -/
def all : List Level :=
  [error, warn, info, debug, trace]

/-- The place of a level in that order. -/
def rank : Level → Nat
  | error => 0
  | warn => 1
  | info => 2
  | debug => 3
  | trace => 4

/-- The name of a level in capitals. -/
def name : Level → String
  | error => "ERROR"
  | warn => "WARN"
  | info => "INFO"
  | debug => "DEBUG"
  | trace => "TRACE"

/-- Whether a journal kept at level `threshold` has entries of level `l`. -/
def admits (threshold l : Level) : Bool :=
  l.rank ≤ threshold.rank

end Level

/-- What an entry of the journal is about. -/
inductive Topic where
  /-- Edits of a thread. -/
  | editing
  /-- Steps of a thread. -/
  | stepping
  /-- The exploration of a problem. -/
  | exploration
  /-- The size of the state space. -/
  | coverage
  deriving DecidableEq

/-- An entry of the journal. -/
inductive Event where
  /-- A block is about to be added to a thread. -/
  | blockAdded (thread : ThreadId) (block : Block)
  /-- A thread is about to run a block. -/
  | stepTaken (thread : ThreadId) (block : Block)
  /-- An exploration begins. -/
  | runBegun (threads : Nat) (input : List Int64) (expected : List Value)
  /-- A state is about to be examined. -/
  | stateTaken (state : Snapshot)
  /-- A state has a mismatch. -/
  | mismatchFound (mismatch : Mismatch) (state : Snapshot)
  /-- The stop signal was seen. -/
  | runStopped (explored : Nat)
  /-- An exploration has ended. -/
  | runEnded (verdict : Verdict) (explored visited : Nat)
  /-- The states down to a depth were counted. -/
  | statesCounted (k total : Nat)
  /-- The schedules up to a length were counted. -/
  | schedulesCounted (k total : Nat)

/-- The name of a mismatch in the journal. -/
def Mismatch.label : Mismatch → String
  | divergent => "Prefix"
  | truncated => "Final"

namespace Event

/-- The level of an entry. -/
def level : Event → Level
  | blockAdded .. => .debug
  | stepTaken .. => .trace
  | runBegun .. => .info
  | stateTaken _ => .trace
  | mismatchFound .. => .debug
  | runStopped _ => .warn
  | runEnded .. => .info
  | statesCounted .. => .debug
  | schedulesCounted .. => .debug

/-- The topic of an entry. -/
def topic : Event → Topic
  | blockAdded .. => .editing
  | stepTaken .. => .stepping
  | runBegun .. | stateTaken _ | mismatchFound .. | runStopped _ | runEnded .. => .exploration
  | statesCounted .. | schedulesCounted .. => .coverage

/-- The text of an entry. -/
def message : Event → String
  | blockAdded thread block =>
    "add_block(thread = " ++ thread.text ++ ", block = " ++ block.text ++ ")"
  | stepTaken thread block =>
    "execute_step(thread = " ++ thread.text ++ ", block = " ++ block.text ++ ")"
  | runBegun threads input expected =>
    "run(threads = " ++ threads.repr ++ ", input = " ++ Snapshot.inputText input ++
    ", expected = " ++ Snapshot.outputText expected ++ ")"
  | stateTaken state => "dequeue " ++ state.text
  | mismatchFound mismatch state =>
    "counterexample (" ++ mismatch.label ++ "): " ++ state.text
  | runStopped explored => "Search stopped after " ++ explored.repr ++ " states"
  | runEnded verdict explored visited =>
    "Search " ++ verdict.text ++ ": explored " ++ explored.repr ++ " states, visited " ++
    visited.repr
  | statesCounted k total =>
    "total_paths_up_to_k(k = " ++ k.repr ++ ") = " ++ total.repr ++ " (visited " ++ total.repr ++
    ")"
  | schedulesCounted k total =>
    "schedules_up_to_k(k = " ++ k.repr ++ ") = " ++ total.repr

end Event

/-- The entries for inserting blocks into a thread one after the other. A refused block has its
entry too, and ends the sequence. -/
def Thread.insertionEvents (t : Thread) : List Block → List Event
  | [] => []
  | b :: rest =>
    .blockAdded t.id b ::
      match t.insert b with
      | .ok t => t.insertionEvents rest
      | .error _ => []

/-- The entries for one step of a thread: one if there is a block to run, else none. -/
def Program.stepEvents (p : Program) (s : State) (t : ThreadId) : List Event :=
  match p.current s t with
  | .ok (some block) => [.stepTaken t block]
  | _ => []

/-- The entries for computing the successors of a state. -/
def State.expansionEvents (p : Program) (s : State) : List Event :=
  (s.ready p).map fun (t, b) => .stepTaken t b

namespace Problem

/-- The entries for examining a state: it is taken, and then reported, or expanded if it is not
complete. -/
def examinationEvents (q : Problem) (s : State) : List Event :=
  .stateTaken s.snapshot ::
    match q.mismatch? s with
    | some mismatch => [.mismatchFound mismatch s.snapshot]
    | none => if s.isComplete then [] else s.expansionEvents q.program

/-- The entries for a whole exploration that ended with the given run. -/
def runEvents (q : Problem) (r : Run) : List Event :=
  [.runBegun q.program.size q.input q.expected] ++
  r.exploration.examined.reverse.flatMap q.examinationEvents ++
  (if r.verdict = .stopped then [.runStopped r.exploration.explored] else []) ++
  [.runEnded r.verdict r.exploration.explored r.exploration.visited]

/-- The entries for counting the states down to depth `k`: all states above that depth are expanded,
level by level. -/
def totalEvents (q : Problem) (k : Nat) : List Event :=
  ((q.levels k).take k).flatten.flatMap (State.expansionEvents q.program) ++
  [.statesCounted k (q.totalWithin k)]

/-- The entry for counting the schedules of length at most `k`. -/
def scheduleEvents (q : Problem) (k : Nat) : List Event :=
  [.schedulesCounted k (q.schedulesWithin k)]

end Problem

end Flowchart
