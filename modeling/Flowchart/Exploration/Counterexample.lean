import Flowchart.Problem

/-!
# Counterexamples

A counterexample is a state with a mismatch, together with the schedule that leads to it and every
state on the way.
-/

namespace Flowchart

/-- A turn of a thread and the state it led to. -/
structure Turn where
  /-- The thread whose turn it was. -/
  thread : ThreadId
  /-- The state after the turn. -/
  state : Snapshot
  deriving DecidableEq

/-- A turn as text: `T1 -> depth=1 …`. -/
def Turn.text (turn : Turn) : String :=
  turn.thread.text ++ " -> " ++ turn.state.text

/-- A state with a mismatch and how it is reached. -/
structure Counterexample where
  /-- The state. -/
  state : Snapshot
  /-- Its mismatch. -/
  mismatch : Mismatch
  /-- The turns that lead from the initial state to it. -/
  trace : List Turn
  deriving DecidableEq

namespace Counterexample

/-- The threads of a counterexample in the order of their turns. -/
def schedule (c : Counterexample) : List ThreadId :=
  c.trace.map (·.thread)

/-- A number padded with blanks on the left to three places at least. -/
def ordinal (n : Nat) : String :=
  let digits := n.repr
  String.ofList (List.replicate (3 - digits.length) ' ') ++ digits

/-- A counterexample in lines: a heading, the numbered turns, and the state that is wrong. -/
def lines (c : Counterexample) : List String :=
  ("Counterexample (" ++ c.mismatch.message ++ ") after " ++ c.trace.length.repr ++ " steps:") ::
  (c.trace.mapIdx fun i turn => "  " ++ ordinal (i + 1) ++ ". " ++ turn.text) ++
  ["  final: " ++ c.state.text]

/-- A counterexample as text. -/
def text (c : Counterexample) : String :=
  "\n".intercalate c.lines

end Counterexample

end Flowchart
