import Flowchart.Id

/-!
# States of an execution

A state says where every thread is, what the variables hold, which input is left, what was printed
and how many steps were taken. Counters and variables are finite maps, so two states with the same
content are equal however they came about.
-/

namespace Flowchart

/-- The state of a program between two steps. -/
@[ext]
structure State where
  /-- The block each thread runs next; `none` for a thread that has ended. -/
  counters : Std.ExtTreeMap ThreadId (Option BlockId)
  /-- The variables written so far. -/
  store : Std.ExtTreeMap String Value
  /-- The input not read yet. All threads read from its front. -/
  input : List Int64
  /-- The values printed so far, in order. -/
  output : List Value
  /-- The number of steps taken. -/
  depth : Nat
  deriving DecidableEq

namespace State

instance : Inhabited State :=
  ⟨⟨∅, ∅, [], [], 0⟩⟩

/-- The value of a variable. One that was never written reads as zero. -/
def get (s : State) (name : String) : Value :=
  s.store.getD name 0

/-- Give a variable a value. -/
def set (s : State) (name : String) (v : Value) : State :=
  { s with store := s.store.insert name v }

@[simp]
theorem get_set (s : State) (name other : String) (v : Value) :
    (s.set name v).get other = if name = other then v else s.get other := by
  simp [get, set, Std.ExtTreeMap.getD_insert]

/-- The block a thread runs next; `none` if it has ended or is unknown. -/
def counter? (s : State) (t : ThreadId) : Option BlockId :=
  s.counters[t]?.join

/-- Whether every thread has ended. -/
def isComplete (s : State) : Bool :=
  s.counters.toList.all (·.2.isNone)

theorem isComplete_iff {s : State} :
    s.isComplete = true ↔
      ∀ (t : ThreadId) (c : Option BlockId), s.counters[t]? = some c → c = none := by
  simp [isComplete, Std.ExtTreeMap.mem_toList_iff_getElem?_eq_some]

end State

end Flowchart
