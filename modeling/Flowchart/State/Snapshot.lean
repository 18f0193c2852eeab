import Flowchart.State.Basic

/-!
# Snapshots of states

A snapshot is a state written down: counters and variables are listed as entries. A snapshot taken
of a state has its entries sorted and each key once; any other list of entries can be written down
too, and `Snapshot.restore` reads it with the last entry for a key in force.

* `State.snapshot`, `Snapshot.restore`: writing a state down, and reading it back.
* `bisect`: look-up by halving in an array of entries that are in ascending order of their keys.
* `Snapshot.get`, `Snapshot.counter?`: look-up in a sorted snapshot.
* `Snapshot.text`: one line of text; `Text.bracketed` is how a sequence is written in it.
-/

namespace Flowchart

namespace Text

/-- The items one after the other, a comma and a blank between neighbours. -/
def commaSeparated (items : List String) : String :=
  ", ".intercalate items

/-- The items between square brackets, separated by commas. -/
def bracketed (items : List String) : String :=
  "[" ++ commaSeparated items ++ "]"

end Text

section Bisect

variable {κ ν : Type} [Ord κ]

/-- The value filed under `key` among the entries at the positions `lo, …, hi - 1`: look at the
middle entry and go on in the half that the key belongs to. -/
def bisectFrom (entries : Array (κ × ν)) (key : κ) (lo hi : Nat) (h : hi ≤ entries.size) :
    Option ν :=
  if hlt : lo < hi then
    let mid := lo + (hi - lo) / 2
    have hmid : mid < entries.size := by omega
    let entry := entries[mid]
    match compare key entry.1 with
    | .lt => bisectFrom entries key lo mid (by omega)
    | .eq => some entry.2
    | .gt => bisectFrom entries key (mid + 1) hi h
  else none
termination_by hi - lo

/-- The value filed under `key` in a sorted array of entries. -/
def bisect (entries : Array (κ × ν)) (key : κ) : Option ν :=
  bisectFrom entries key 0 entries.size (Nat.le_refl _)

end Bisect

/-- A state written down. -/
structure Snapshot where
  /-- The block each thread runs next. -/
  counters : Array (ThreadId × Option BlockId)
  /-- The variables and their values. -/
  store : Array (String × Value)
  /-- The input not read yet. -/
  input : List Int64
  /-- The values printed so far. -/
  output : List Value
  /-- The number of steps taken. -/
  depth : Nat
  deriving DecidableEq, Inhabited

/-- Write a state down, entries in ascending order of their keys. -/
def State.snapshot (s : State) : Snapshot where
  counters := s.counters.toList.toArray
  store := s.store.toList.toArray
  input := s.input
  output := s.output
  depth := s.depth

namespace Snapshot

/-- The state that a snapshot describes. Of several entries for one key the last counts. -/
def restore (g : Snapshot) : State where
  counters := Std.ExtTreeMap.ofList g.counters.toList
  store := Std.ExtTreeMap.ofList g.store.toList
  input := g.input
  output := g.output
  depth := g.depth

/-- The value of a variable in a sorted snapshot, zero if it is not listed. -/
def get (g : Snapshot) (name : String) : Value :=
  (bisect g.store name).getD 0

/-- The block a thread runs next in a sorted snapshot. -/
def counter? (g : Snapshot) (t : ThreadId) : Option BlockId :=
  (bisect g.counters t).join

/-- Whether every listed thread has ended. -/
def isComplete (g : Snapshot) : Bool :=
  g.counters.toList.all (·.2.isNone)

/-- Where a thread is: `T1:B4`, or `T1:done` once it has ended. -/
def counterText (entry : ThreadId × Option BlockId) : String :=
  entry.1.text ++ ":" ++ (entry.2.map BlockId.text).getD "done"

/-- What a variable holds: `x=1`. -/
def variableText (entry : String × Value) : String :=
  entry.1 ++ "=" ++ entry.2.text

/-- Input numbers as text: `[5, -6]`. -/
def inputText (input : List Int64) : String :=
  Text.bracketed (input.map (·.toInt.repr))

/-- Printed values as text: `[9, 0]`. -/
def outputText (output : List Value) : String :=
  Text.bracketed (output.map Value.text)

/-- A snapshot on one line. -/
def text (g : Snapshot) : String :=
  "depth=" ++ g.depth.repr ++
  " pcs=\x7b" ++ Text.commaSeparated (g.counters.toList.map counterText) ++
  "\x7d vars=\x7b" ++ Text.commaSeparated (g.store.toList.map variableText) ++
  "\x7d input=" ++ inputText g.input ++
  " output=" ++ outputText g.output

end Snapshot

end Flowchart
