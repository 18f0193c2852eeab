import Flowchart.Exploration.Basic

/-!
# Sessions and stop signals

A session explores one problem, any number of times, under a stop signal. The signal may be shared:
someone outside the session can hold it too, and either side sees what the other does to it, until
one of the two turns to another signal.

A session counts what its run examines and keeps the counterexample that the run finds. Both are
cleared when a run begins, and the number of states met is noted when it ends, so that what a
session reports is about its latest run.
-/

namespace Flowchart

/-- The stop signal of a session and the one held outside, each raised or not. -/
inductive StopSignal where
  /-- Both are one signal. -/
  | shared (raised : Bool)
  /-- The session has a signal `own`, and another one is held outside. -/
  | apart (own held : Bool)
  deriving DecidableEq

namespace StopSignal

/-- Whether the signal of the session is raised. -/
def own : StopSignal → Bool
  | shared raised => raised
  | apart own _ => own

/-- Whether the signal held outside is raised. -/
def held : StopSignal → Bool
  | shared raised => raised
  | apart _ held => held

/-- Raise the signal of the session. -/
def raise : StopSignal → StopSignal
  | shared _ => shared true
  | apart _ held => apart true held

/-- Raise or lower the signal held outside. -/
def store (value : Bool) : StopSignal → StopSignal
  | shared _ => shared value
  | apart own _ => apart own value

/-- Hold the signal of the session outside from now on. -/
def take (g : StopSignal) : StopSignal :=
  shared g.own

/-- Give the session the signal that is held outside. -/
def install (g : StopSignal) : StopSignal :=
  shared g.held

/-- Give the session a signal of its own. -/
def renew (value : Bool) (g : StopSignal) : StopSignal :=
  apart value g.held

@[simp]
theorem own_raise (g : StopSignal) : g.raise.own = true := by
  cases g <;> rfl

@[simp]
theorem held_store (g : StopSignal) (value : Bool) : (g.store value).held = value := by
  cases g <;> rfl

end StopSignal

/-- A problem under exploration. -/
structure Session where
  /-- The problem. -/
  problem : Problem
  /-- The stop signal. -/
  signal : StopSignal
  /-- How many states of each depth the latest run has examined. -/
  tally : Tally
  /-- The number of states met by the latest run. -/
  visited : Nat
  /-- The counterexample found by the latest run. -/
  counterexample? : Option Counterexample

namespace Session

/-- A session before its first run, with a lowered signal that is also held outside. -/
def new (q : Problem) : Session where
  problem := q
  signal := .shared false
  tally := ∅
  visited := 0
  counterexample? := none

/-- The number of states examined by the latest run. -/
def explored (c : Session) : Nat :=
  c.tally.total

/-- The number of states of depth at most `k` examined by the latest run. -/
def checkedWithin (c : Session) (k : Nat) : Nat :=
  c.tally.within k

/-- The number of states that a run may examine: none under a raised signal, else as many as are
examined until the signal is raised. -/
def limit (raised : Bool) (raiseAfter : Option Nat) : Option Nat :=
  if raised then some 0 else raiseAfter

/-- Forget what was counted and found. The number of states met stays until a run has ended. -/
def clear (c : Session) : Session :=
  { c with tally := ∅, counterexample? := none }

/-- The exploration at the beginning of a run. It goes on counting where the session stands. -/
def start (c : Session) : Exploration :=
  { Exploration.begin c.problem.initial with tally := c.tally }

/-- Note a run that has ended. Only a counterexample that was found takes the place of an earlier
one. -/
def record (c : Session) (r : Run) : Session :=
  { c with
    tally := r.exploration.tally
    visited := r.exploration.visited
    counterexample? := r.verdict.counterexample?.or c.counterexample? }

/-- Run the exploration from the beginning, and give the run with the session after it. The signal
is raised when `raiseAfter` states have been examined, and then stays so. `none` if the fuel does
not suffice. -/
def run (c : Session) (fuel : Nat) (raiseAfter : Option Nat) : Option (Run × Session) :=
  let c := c.clear
  (c.problem.exploreFrom fuel (limit c.signal.own raiseAfter) c.start).map fun r =>
    let raised := raiseAfter.any (· ≤ r.exploration.explored)
    (r, { c.record r with signal := if raised then c.signal.raise else c.signal })

/-- Since the session is cleared first, its run is the exploration of the problem, and of what it
held before only the problem and the signal are left. -/
theorem run_eq (c : Session) (fuel : Nat) (raiseAfter : Option Nat) :
    c.run fuel raiseAfter = (c.problem.explore fuel (limit c.signal.own raiseAfter)).map fun r =>
      (r, {
        problem := c.problem
        signal := if raiseAfter.any (· ≤ r.exploration.explored) then c.signal.raise else c.signal
        tally := r.exploration.tally
        visited := r.exploration.visited
        counterexample? := r.verdict.counterexample? }) := by
  have hrecord (r : Run) :
      r.verdict.counterexample?.or c.clear.counterexample? = r.verdict.counterexample? := by
    exact Option.or_none
  simp only [run, record, hrecord]
  rfl

/-- What a run leaves in the session. -/
theorem explore_of_run {c c' : Session} {fuel : Nat} {raiseAfter : Option Nat} {r : Run}
    (h : c.run fuel raiseAfter = some (r, c')) :
    c.problem.explore fuel (limit c.signal.own raiseAfter) = some r ∧ c'.problem = c.problem ∧
      c'.tally = r.exploration.tally ∧ c'.visited = r.exploration.visited ∧
      c'.counterexample? = r.verdict.counterexample? := by
  rw [run_eq, Option.map_eq_some_iff] at h
  obtain ⟨r', hr', heq⟩ := h
  obtain ⟨rfl, rfl⟩ := Prod.mk.inj heq
  exact ⟨hr', rfl, rfl, rfl, rfl⟩

end Session

end Flowchart
