import Flowchart.State.Snapshot
import Flowchart.Step

/-!
# Schedules

A thread is ready if its current block exists and need not wait for input. The successors of a state
are the states that one step of a ready thread leads to. A schedule is a list of threads, and it is
valid from a state if each of its threads is ready when its turn comes.

* `State.ready`, `State.runnable`, `State.successors`: what can happen next in a state.
* `State.advance?`, `State.replay?`: the state after one turn, and after a whole schedule.
* `Snapshot.runnable`, `Snapshot.successors`: the same questions about a snapshot, whatever its
  entries are. Here a step may fail, since an entry that is out of force can make a thread look
  ready, and the count of steps may be at its largest.

The successors of a state are meant for executions that begin at depth zero, where the count of
steps has room for every schedule that can be carried out, so they are not tested for it.
-/

namespace Flowchart

/-- The block of thread `t` that can run when the thread's counter is `counter` and `input` is
left. -/
def Program.ready? (p : Program) (input : List Int64) (t : ThreadId) (counter : Option BlockId) :
    Option Block :=
  (counter.bind (p.block? t)).filter fun b => !(b.action.isInput && input.isEmpty)

/-- The threads among the given counters that can run, each with its block. -/
def Program.readyAmong (p : Program) (input : List Int64)
    (counters : List (ThreadId × Option BlockId)) : List (ThreadId × Block) :=
  counters.filterMap fun (t, counter) => (p.ready? input t counter).map (t, ·)

namespace State

variable (p : Program) (s : State)

/-- The threads that can run, in ascending order, each with the block it would run. -/
def ready : List (ThreadId × Block) :=
  p.readyAmong s.input s.counters.toList

/-- The threads that can run, in ascending order. -/
def runnable : List ThreadId :=
  (s.ready p).map Prod.fst

/-- The states one step away, one for each thread that can run. -/
def successors : List (ThreadId × State) :=
  (s.ready p).map fun (t, b) => (t, s.fire t b)

/-- The state after a turn of thread `t`, if it can run. -/
def advance? (t : ThreadId) : Option State :=
  (s.successors p).lookup t

/-- The state after a schedule, if the schedule is valid from `s`. -/
def replay? (schedule : List ThreadId) : Option State :=
  schedule.foldlM (advance? p) s

theorem map_fst_successors : (s.successors p).map Prod.fst = s.runnable p := by
  simp [successors, runnable]

@[simp]
theorem replay?_nil : s.replay? p [] = some s :=
  rfl

theorem replay?_cons (t : ThreadId) (schedule : List ThreadId) :
    s.replay? p (t :: schedule) = (s.advance? p t).bind (·.replay? p schedule) :=
  List.foldlM_cons

theorem replay?_append (first second : List ThreadId) :
    s.replay? p (first ++ second) = (s.replay? p first).bind (·.replay? p second) :=
  List.foldlM_append

end State

namespace Snapshot

variable (p : Program) (g : Snapshot)

/-- The threads whose entries say that they can run, in the order of the entries. -/
def runnable : List ThreadId :=
  (p.readyAmong g.input g.counters.toList).map Prod.fst

/-- The snapshots one step away from a snapshot, one for each thread listed as able to run. The
first step that fails counts. -/
def successors : Except Fault (List (ThreadId × Snapshot)) :=
  (g.runnable p).mapM fun t => (p.step g.restore t).map fun s => (t, s.snapshot)

end Snapshot

end Flowchart
