import Flowchart.Problem
import Flowchart.State.Order

/-!
# Levels of the state space

The states of a problem that some valid schedule of length `n` leads to make up its `n`-th level.
Since a state records its depth, the levels are disjoint, and repetitions need to be looked for
within a level only. Levels do not depend on the expected output: no state is left out because of a
mismatch.
-/

namespace Flowchart

/-- The first occurrence of every state of a list that is not in `seen`. -/
def distinctFrom (seen : Std.ExtTreeMap State Unit) : List State → List State
  | [] => []
  | s :: rest =>
    if s ∈ seen then distinctFrom seen rest else s :: distinctFrom (seen.insert s ()) rest

/-- The first occurrence of every state of a list. -/
def distinct (states : List State) : List State :=
  distinctFrom ∅ states

/-- The states one step away from a level, in order of discovery. -/
def nextLevel (p : Program) (level : List State) : List State :=
  distinct (level.flatMap fun s => (s.successors p).map (·.2))

/-- A level and those after it, `k` of them at most and none of them empty. -/
def levelsFrom (p : Program) : Nat → List State → List (List State)
  | 0, level => [level]
  | k + 1, level =>
    match nextLevel p level with
    | [] => [level]
    | next => level :: levelsFrom p k next

/-- The levels of a problem from the initial state to depth `k`, as far as there are states. -/
def Problem.levels (q : Problem) (k : Nat) : List (List State) :=
  levelsFrom q.program k [q.initial]

/-- The number of states that valid schedules of length at most `k` lead to. -/
def Problem.totalWithin (q : Problem) (k : Nat) : Nat :=
  ((q.levels k).map List.length).foldr (· + ·) 0

end Flowchart
