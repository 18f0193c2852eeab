import Flowchart.Problem
import Flowchart.State.Order

/-!
# Counting schedules

Schedules are too many to list, but those of one length can be counted by where they lead: a census
gives each state the number of schedules that lead to it. One step turns the census of a length into
that of the next, since the schedules to a state are those to its predecessors, each with one more
turn.
-/

namespace Flowchart

/-- The number of schedules of one length that lead to each state. -/
abbrev Census := Std.ExtTreeMap State Nat

namespace Census

/-- Count `n` more schedules that lead to `s`. -/
def add (c : Census) (s : State) (n : Nat) : Census :=
  c.insert s (c.getD s 0 + n)

/-- The census of the empty schedule from a state. -/
def single (s : State) : Census :=
  (∅ : Census).add s 1

/-- The census of the schedules with one more turn. -/
def next (p : Program) (c : Census) : Census :=
  c.toList.foldl
    (fun census (s, n) => (s.successors p).foldl (fun census turn => census.add turn.2 n) census) ∅

/-- The number of schedules in a census. -/
def total (c : Census) : Nat :=
  c.values.foldr (· + ·) 0

end Census

/-- The number of schedules in a census and in the `k` censuses after it. -/
def schedulesFrom (p : Program) : Nat → Census → Nat
  | 0, c => c.total
  | k + 1, c =>
    let next := c.next p
    if next.isEmpty then c.total else c.total + schedulesFrom p k next

/-- The number of valid schedules of a problem whose length is at most `k`. -/
def Problem.schedulesWithin (q : Problem) (k : Nat) : Nat :=
  schedulesFrom q.program k (.single q.initial)

end Flowchart
