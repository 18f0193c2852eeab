import Flowchart.Schedule

/-!
# Problems

A problem is a program with an input and the output that is expected of it. The program solves the
problem if under every schedule its output stays within the expected one, and is the expected one
once all threads have ended. A state that shows the contrary has a mismatch.
-/

namespace Flowchart

/-- A program with an input and the output expected of it. -/
structure Problem where
  /-- The program. -/
  program : Program
  /-- The numbers its threads may read. -/
  input : List Int64
  /-- The values they should print, in order. -/
  expected : List Value

/-- In what way a state shows that a problem is not solved. -/
inductive Mismatch where
  /-- The output so far does not begin the expected output. -/
  | divergent
  /-- All threads have ended and the output falls short of the expected one. -/
  | truncated
  deriving DecidableEq

/-- What to say about a mismatch. -/
def Mismatch.message : Mismatch → String
  | divergent => "output diverges from expected prefix"
  | truncated => "final output differs from expected"

namespace Problem

/-- The state in which every execution begins: each thread at its entry, the declared variables at
zero, all input unread. A thread without entry counts as ended. -/
def initial (q : Problem) : State where
  counters := .ofList (q.program.threadList.map fun t => (t.id, t.start?))
  store := .ofList (q.program.declared.map fun name => (name, (0 : Value)))
  input := q.input
  output := []
  depth := 0

/-- Whether an output begins the expected one. -/
def agrees (q : Problem) (output : List Value) : Bool :=
  output.isPrefixOf q.expected

/-- The mismatch that a state shows, if any. -/
def mismatch? (q : Problem) (s : State) : Option Mismatch :=
  if !q.agrees s.output then some .divergent
  else if s.isComplete && s.output != q.expected then some .truncated
  else none

/-- The state that a schedule leads to from the beginning, if the schedule is valid. -/
def after? (q : Problem) (schedule : List ThreadId) : Option State :=
  q.initial.replay? q.program schedule

/-- Some valid schedule leads to the state. -/
def Reachable (q : Problem) (s : State) : Prop :=
  ∃ schedule, q.after? schedule = some s

theorem reachable_initial (q : Problem) : q.Reachable q.initial :=
  ⟨[], rfl⟩

/-- A state has a mismatch exactly if its output does not begin the expected one, or all threads
have ended and the two differ. -/
theorem isSome_mismatch?_iff {q : Problem} {s : State} :
    (q.mismatch? s).isSome = true ↔
      ¬ s.output <+: q.expected ∨ (s.isComplete = true ∧ s.output ≠ q.expected) := by
  rw [← List.isPrefixOf_iff_prefix]
  cases h : s.output.isPrefixOf q.expected <;> simp [mismatch?, agrees, h]

end Problem

end Flowchart
