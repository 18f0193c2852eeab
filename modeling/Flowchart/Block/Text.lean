import Flowchart.Block.Basic

/-!
# The text of a block

One line per block: its number, what it does, and where control goes.
-/

namespace Flowchart

/-- A condition as text: `x == 0`. -/
def Condition.text (c : Condition) : String :=
  c.var ++ " " ++ c.op.symbol ++ " " ++ c.constant.text

/-- An operand as text: the literal in full, or the name of the variable. -/
def Operand.text : Operand → String
  | literal n => n.toNat.repr
  | copy source => source

namespace Action

/-- The kind of an action in capitals. -/
def kind : Action → String
  | start _ => "START"
  | finish => "END"
  | assign .. => "ASSIGN"
  | input .. => "INPUT"
  | print .. => "PRINT"
  | branch .. => "DECISION"

/-- An action as text, with the blocks it leads to. -/
def text : Action → String
  | start next => "START -> " ++ next.text
  | finish => "END"
  | assign target operand next => target ++ " = " ++ operand.text ++ " -> " ++ next.text
  | input var next => "INPUT " ++ var ++ " -> " ++ next.text
  | print var next => "PRINT " ++ var ++ " -> " ++ next.text
  | branch condition onTrue onFalse =>
    "IF " ++ condition.text ++ " ? " ++ onTrue.text ++ " : " ++ onFalse.text

end Action

/-- A block as text: `B1 x = 10 -> B2`. -/
def Block.text (b : Block) : String :=
  b.id.text ++ " " ++ b.action.text

end Flowchart
