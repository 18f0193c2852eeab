import Flowchart.Program.Basic
import Flowchart.State.Basic

/-!
# One step of one thread

A step runs the current block of one thread. What a block does is split in two: `Action.effect` on
variables, input and output, and `Action.next?` on the thread's counter. `State.fire` puts them
together and counts the step.

`Program.step` looks the block up first. The look-up fails if the program has no such thread, if the
state has no counter for it, or if the counter names a block that does not exist. A thread that has
ended takes no step and leaves the state as it is.

Steps are counted in 64 bits. `State.fire` itself counts without bound, and `Program.step` refuses
the one step that the count has no room for.
-/

namespace Flowchart

/-- The value of an operand. -/
def Operand.value (s : State) : Operand → Value
  | literal n => .ofLiteral n
  | copy source => s.get source

namespace Action

/-- What an action does to variables, input and output. An INPUT without input does nothing. -/
def effect (s : State) : Action → State
  | start _ => s
  | finish => s
  | assign target operand _ => s.set target (operand.value s)
  | input var _ =>
    match s.input with
    | [] => s
    | i :: rest => { s.set var (.ofInput i) with input := rest }
  | print var _ => { s with output := s.output ++ [s.get var] }
  | branch .. => s

/-- The block that runs after the one numbered `here`; `none` when the thread ends. An INPUT without
input is tried again. -/
def next? (s : State) (here : BlockId) : Action → Option BlockId
  | start next => some next
  | finish => none
  | assign _ _ next => some next
  | input _ next => some (if s.input.isEmpty then here else next)
  | print _ next => some next
  | branch condition onTrue onFalse =>
    some (if condition.holds (s.get condition.var) then onTrue else onFalse)

end Action

/-- The state after thread `t` has run block `b`. -/
def State.fire (s : State) (t : ThreadId) (b : Block) : State :=
  { b.action.effect s with
    counters := s.counters.insert t (b.action.next? s b.id)
    depth := s.depth + 1 }

@[simp]
theorem State.depth_fire (s : State) (t : ThreadId) (b : Block) :
    (s.fire t b).depth = s.depth + 1 :=
  rfl

/-- A step moves the counter of its own thread only. -/
theorem State.getElem?_counters_fire (s : State) (t u : ThreadId) (b : Block) :
    (s.fire t b).counters[u]? =
      if t = u then some (b.action.next? s b.id) else s.counters[u]? := by
  simp [State.fire, Std.ExtTreeMap.getElem?_insert]

/-- Why a step could not be taken. -/
inductive Fault where
  /-- The program has no such thread. -/
  | unknownThread (thread : ThreadId)
  /-- The state has no counter for the thread. -/
  | noCounter (thread : ThreadId)
  /-- The counter names a block that the thread does not have. -/
  | missingBlock (thread : ThreadId) (block : BlockId)
  /-- The count of steps has no room for another one. -/
  | depthOverflow
  deriving DecidableEq

/-- What to say about a fault. -/
def Fault.message : Fault → String
  | unknownThread thread => "Thread " ++ thread.text ++ " not found"
  | noCounter thread => "Thread " ++ thread.text ++ " has no program counter"
  | missingBlock thread block =>
    "Block " ++ block.text ++ " not found in thread " ++ thread.text
  | depthOverflow => "attempt to add with overflow"

/-- The largest count of steps: the last number of 64 bits. -/
def maxDepth : Nat := 0xffffffffffffffff

namespace Program

/-- The block that thread `t` runs next; `none` if the thread has ended. -/
def current (p : Program) (s : State) (t : ThreadId) : Except Fault (Option Block) :=
  match p.thread? t, s.counters[t]? with
  | none, _ => .error (.unknownThread t)
  | some _, none => .error (.noCounter t)
  | some _, some none => .ok none
  | some thread, some (some b) =>
    match thread.block? b with
    | none => .error (.missingBlock t b)
    | some block => .ok (some block)

/-- One step of thread `t`. The room for the count is looked at last, when a block is about to
run. -/
def step (p : Program) (s : State) (t : ThreadId) : Except Fault State :=
  match p.current s t with
  | .error fault => .error fault
  | .ok none => .ok s
  | .ok (some block) => if s.depth < maxDepth then .ok (s.fire t block) else .error .depthOverflow

end Program

end Flowchart
