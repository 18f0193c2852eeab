import Flowchart.Coverage.Level
import Flowchart.Decimal.Fixed
import Flowchart.Exploration.Session

/-!
# Coverage

How much of the state space down to some depth the latest run of a session has examined. A run
leaves states out when it ends early, so the states it examined are compared with all there are.
-/

namespace Flowchart

/-- The share of a total in percent; all of it if there is nothing to cover. -/
def percentage (checked total : Nat) : Float :=
  if total = 0 then 100.0 else checked.toFloat / total.toFloat * 100.0

/-- The coverage of the states down to one depth. -/
structure Coverage where
  /-- The depth. -/
  k : Nat
  /-- The number of states examined. -/
  checked : Nat
  /-- The number of states there are. -/
  total : Nat
  /-- The share of the states examined, in percent. -/
  percent : Float

/-- Coverage as text. The share has two places after the point. -/
def Coverage.text (c : Coverage) : String :=
  "K=" ++ c.k.repr ++ ": checked " ++ c.checked.repr ++ " of " ++ c.total.repr ++
  " states (" ++ Decimal.fixed2 c.percent.toBits ++ "%)"

/-- The coverage reached by the latest run of a session. -/
def Session.coverage (c : Session) (k : Nat) : Coverage :=
  let checked := c.checkedWithin k
  let total := c.problem.totalWithin k
  { k, checked, total, percent := percentage checked total }

end Flowchart
