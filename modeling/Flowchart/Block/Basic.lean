import Flowchart.Id

/-!
# Blocks of a flowchart

A block is one node of a thread's control-flow graph: a number and an action. An action names the
blocks that may run next, so back edges need no special treatment.

* `Action.targets` lists the blocks an action may lead to.
* `Action.names` lists the variables an action mentions, `Action.written?` the one it may change.
-/

namespace Flowchart

/-- How a branch compares a variable with a constant, both as unsigned words. -/
inductive Comparison where
  /-- The two are equal. -/
  | equal
  /-- The variable is smaller. -/
  | less
  deriving DecidableEq, Inhabited

namespace Comparison

/-- The outcome of a comparison. -/
def holds : Comparison → Value → Value → Bool
  | equal, a, b => a == b
  | less, a, b => decide (a < b)

/-- The sign of a comparison. -/
def symbol : Comparison → String
  | equal => "=="
  | less => "<"

/-- A text that is not the sign of any comparison. -/
structure UnknownSymbol where
  /-- The text that was met. -/
  found : String
  deriving DecidableEq

/-- What to say about a text that is no comparison. -/
def UnknownSymbol.message (e : UnknownSymbol) : String :=
  "Operator must be '==' or '<', got '" ++ e.found ++ "'"

/-- The comparison with the given sign. -/
def ofSymbol (s : String) : Except UnknownSymbol Comparison :=
  if s = "==" then .ok equal
  else if s = "<" then .ok less
  else .error ⟨s⟩

end Comparison

/-- The test of a branch: a variable against a constant. -/
structure Condition where
  /-- The variable that is read. -/
  var : String
  /-- How it is compared. -/
  op : Comparison
  /-- What it is compared with. -/
  constant : Value
  deriving DecidableEq, Inhabited

/-- The outcome of a condition when its variable holds `v`. -/
def Condition.holds (c : Condition) (v : Value) : Bool :=
  c.op.holds v c.constant

/-- The right-hand side of an assignment. -/
inductive Operand where
  /-- A literal, cut to 32 bits when it is stored. -/
  | literal (n : UInt64)
  /-- The current value of a variable. -/
  | copy (source : String)
  deriving DecidableEq, Inhabited

/-- The variables an operand reads. -/
def Operand.names : Operand → List String
  | literal _ => []
  | copy source => [source]

/-- What a block does, and where control goes from it. -/
inductive Action where
  /-- The entry of a flowchart. -/
  | start (next : BlockId)
  /-- The end of the thread. -/
  | finish
  /-- Store an operand in a variable. -/
  | assign (target : String) (operand : Operand) (next : BlockId)
  /-- Take the next number of the input stream into a variable. -/
  | input (var : String) (next : BlockId)
  /-- Append the value of a variable to the output. -/
  | print (var : String) (next : BlockId)
  /-- Go one of two ways. -/
  | branch (condition : Condition) (onTrue onFalse : BlockId)
  deriving DecidableEq, Inhabited

namespace Action

/-- Whether the action is the entry of a flowchart. -/
def isStart : Action → Bool
  | start _ => true
  | _ => false

/-- Whether the action ends its thread. -/
def isFinish : Action → Bool
  | finish => true
  | _ => false

/-- Whether the action waits for input. -/
def isInput : Action → Bool
  | input .. => true
  | _ => false

/-- The blocks the action may lead to, the true branch before the false one. A branch whose two ways
agree lists the block twice. -/
def targets : Action → List BlockId
  | start next => [next]
  | finish => []
  | assign _ _ next => [next]
  | input _ next => [next]
  | print _ next => [next]
  | branch _ onTrue onFalse => [onTrue, onFalse]

/-- The variables the action mentions, the one it writes first. -/
def names : Action → List String
  | start _ => []
  | finish => []
  | assign target operand _ => target :: operand.names
  | input var _ => [var]
  | print var _ => [var]
  | branch condition _ _ => [condition.var]

/-- The variable the action may change. -/
def written? : Action → Option String
  | assign target _ _ => some target
  | input var _ => some var
  | _ => none

end Action

/-- A block: a numbered action. -/
structure Block where
  /-- The number other blocks know it by. -/
  id : BlockId
  /-- What it does. -/
  action : Action
  deriving DecidableEq, Inhabited

end Flowchart
