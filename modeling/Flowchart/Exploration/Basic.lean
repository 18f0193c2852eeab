import Flowchart.Exploration.Counterexample
import Flowchart.State.Order

/-!
# Exploration of all schedules

The states of a program are explored breadth first. Every state met is linked to the one it was
first met from, and waits in a queue until it is examined. The first state with a mismatch ends the
exploration, and the links back from it make its trace. States reached by several schedules are
examined once.

* `Exploration`: what is known in the course of it.
* `Problem.progress`: one turn of the loop, which either goes on or ends with a `Run`.
* `Problem.explore`: the whole loop. It need not end, so it is given fuel; `none` means that the
  fuel did not suffice and says nothing else.

An exploration can be cut short. The limit of `Problem.explore` is the number of states it may
examine before it is stopped; it is told to stop before it looks at the queue again.
-/

namespace Flowchart

/-- How a state was first met: by a turn of a thread from another state. -/
structure Link where
  /-- The state it was met from. -/
  parent : State
  /-- The thread whose turn it was. -/
  thread : ThreadId
  deriving DecidableEq

/-- How many states of each depth have been examined. -/
abbrev Tally := Std.ExtTreeMap Nat Nat

namespace Tally

/-- Count one more state of depth `d`. -/
def count (t : Tally) (d : Nat) : Tally :=
  t.insert d (t.getD d 0 + 1)

/-- The number of states counted. -/
def total (t : Tally) : Nat :=
  (t.toList.map (·.2)).foldr (· + ·) 0

/-- The number of states counted whose depth is at most `k`. -/
def within (t : Tally) (k : Nat) : Nat :=
  ((t.toList.filter (·.1 ≤ k)).map (·.2)).foldr (· + ·) 0

end Tally

/-- What is known in the course of an exploration. -/
structure Exploration where
  /-- The states that are still to be examined, in the order in which they were met. -/
  queue : List State
  /-- All states met so far and how. The initial state has no link. -/
  links : Std.ExtTreeMap State (Option Link)
  /-- The states examined so far, the latest first. -/
  examined : List State
  /-- How many states of each depth have been examined. -/
  tally : Tally
  deriving DecidableEq

namespace Exploration

/-- Nothing is examined yet, and `s` is the only state met. -/
def begin (s : State) : Exploration where
  queue := [s]
  links := (∅ : Std.ExtTreeMap State (Option Link)).insert s none
  examined := []
  tally := ∅

/-- The number of states met. -/
def visited (e : Exploration) : Nat :=
  e.links.size

/-- The number of states examined. -/
def explored (e : Exploration) : Nat :=
  e.examined.length

/-- The number of states examined whose depth is at most `k`. -/
def checkedWithin (e : Exploration) (k : Nat) : Nat :=
  e.tally.within k

/-- Take the first state off the queue and count it as examined. -/
def examine (e : Exploration) (s : State) (rest : List State) : Exploration :=
  { e with
    queue := rest
    examined := s :: e.examined
    tally := e.tally.count s.depth }

/-- Note a state that a turn from `parent` leads to. It joins the queue if it is new. -/
def discover (parent : State) (e : Exploration) (turn : ThreadId × State) : Exploration :=
  if turn.2 ∈ e.links then e
  else { e with
    queue := e.queue ++ [turn.2]
    links := e.links.insert turn.2 (some ⟨parent, turn.1⟩) }

/-- Note all states one step away from `s`, in the order of the threads. -/
def expand (e : Exploration) (p : Program) (s : State) : Exploration :=
  (s.successors p).foldl (discover s) e

/-- Follow the links back from `s`, at most `n` of them, and put the turns met before `later`. -/
def turnsTo (e : Exploration) : Nat → State → List Turn → List Turn
  | 0, _, later => later
  | n + 1, s, later =>
    match e.links[s]? with
    | some (some link) => e.turnsTo n link.parent (⟨link.thread, s.snapshot⟩ :: later)
    | _ => later

/-- The turns by which a state was first met. There are as many as the state is deep. -/
def trace (e : Exploration) (s : State) : List Turn :=
  e.turnsTo s.depth s []

end Exploration

/-- The result of an exploration. -/
inductive Verdict where
  /-- All states were examined and none has a mismatch. -/
  | verified
  /-- A state with a mismatch was found. -/
  | refuted (counterexample : Counterexample)
  /-- The exploration was stopped before either was settled. -/
  | stopped
  deriving DecidableEq

namespace Verdict

/-- A verdict in words. -/
def text : Verdict → String
  | verified => "verified"
  | refuted _ => "counterexample found"
  | stopped => "stopped"

/-- The counterexample of a verdict, if it has one. -/
def counterexample? : Verdict → Option Counterexample
  | refuted c => some c
  | _ => none

/-- Whether nothing was found to be wrong. -/
def isSuccess (v : Verdict) : Bool :=
  v.counterexample?.isNone

end Verdict

/-- An exploration that has ended. -/
structure Run where
  /-- Its result. -/
  verdict : Verdict
  /-- What is known at the end. -/
  exploration : Exploration
  deriving DecidableEq

/-- What one turn of the loop leads to. -/
inductive Progress where
  /-- There is more to do. -/
  | more (exploration : Exploration)
  /-- The exploration has ended. -/
  | done (run : Run)

namespace Problem

/-- One turn of the loop: stop if told so, else examine the first state of the queue. A complete
state without a mismatch is not expanded. -/
def progress (q : Problem) (stop : Bool) (e : Exploration) : Progress :=
  if stop then .done ⟨.stopped, e⟩
  else
    match e.queue with
    | [] => .done ⟨.verified, e⟩
    | s :: rest =>
      let e := e.examine s rest
      match q.mismatch? s with
      | some mismatch => .done ⟨.refuted ⟨s.snapshot, mismatch, e.trace s⟩, e⟩
      | none => .more (if s.isComplete then e else e.expand q.program s)

/-- Go on with an exploration for at most `fuel` turns of the loop, and stop it when `limit` more
states have been examined. -/
def exploreFrom (q : Problem) : Nat → Option Nat → Exploration → Option Run
  | 0, _, _ => none
  | fuel + 1, limit, e =>
    match q.progress (limit == some 0) e with
    | .done run => some run
    | .more e => q.exploreFrom fuel (limit.map (· - 1)) e

/-- Explore all schedules of a problem. -/
def explore (q : Problem) (fuel : Nat) (limit : Option Nat) : Option Run :=
  q.exploreFrom fuel limit (.begin q.initial)

end Problem

end Flowchart
