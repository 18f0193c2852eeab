import Flowchart.Program.Basic

/-!
# Defects of a program

Execution and exploration accept every program, but a thread that runs into a missing block stops
there for good. `Program.findings` lists all that is wrong with a program before it is run, each
defect with the thread and the block it belongs to.

The order is: defects of the program, then thread by thread the defects of the thread and those of
its blocks, all in ascending order of numbers. A thread without blocks has that one defect only.
-/

namespace Flowchart

/-- The most threads a program may have. -/
def maxThreads : Nat := 100

/-- The most variables a program may declare. -/
def maxVariables : Nat := 100

/-- The most blocks a thread may have. -/
def maxBlocks : Nat := 100

/-- The largest constant that may stand in an assignment or a branch. -/
def maxConstant : Nat := 0x7fffffff

/-- The ways out of a block. -/
inductive Exit where
  /-- The only way out of a block that is no branch. -/
  | next
  /-- The way taken when the condition of a branch holds. -/
  | onTrue
  /-- The way taken when it does not. -/
  | onFalse
  deriving DecidableEq

namespace Action

/-- The ways out of a block with their targets, in the order of `Action.targets`. -/
def exits : Action → List (Exit × BlockId)
  | branch _ onTrue onFalse => [(.onTrue, onTrue), (.onFalse, onFalse)]
  | action => action.targets.map (Exit.next, ·)

/-- The constant written in an assignment or a branch. -/
def constant? : Action → Option Nat
  | assign _ (.literal n) _ => some n.toNat
  | branch condition _ _ => some condition.constant.toNat
  | _ => none

theorem map_snd_exits (a : Action) : a.exits.map Prod.snd = a.targets := by
  cases a <;> rfl

end Action

/-- One thing that is wrong with a program. -/
inductive Defect where
  /-- The program has no thread or too many. -/
  | threadCount (n : Nat)
  /-- The program declares too many variables. -/
  | variableCount (n : Nat)
  /-- The thread has no blocks. -/
  | emptyThread
  /-- The thread has too many blocks. -/
  | blockCount
  /-- The thread has no entry, or several. -/
  | startCount (n : Nat)
  /-- The thread has no END block. -/
  | noFinish
  /-- The block mentions a variable that is not declared. -/
  | undeclared (name : String)
  /-- The constant of the block is too large. -/
  | constantRange (n : Nat)
  /-- The block leads to a block that does not exist. -/
  | dangling (exit : Exit) (target : BlockId)
  deriving DecidableEq

/-- What to say about a defect. -/
def Defect.message : Defect → String
  | threadCount n =>
    "Program must have 1-" ++ maxThreads.repr ++ " threads (current: " ++ n.repr ++ ")"
  | variableCount n =>
    "Too many shared variables: " ++ n.repr ++ " (max: " ++ maxVariables.repr ++ ")"
  | emptyThread => "Thread is empty"
  | blockCount => "Thread exceeds " ++ maxBlocks.repr ++ " blocks limit"
  | startCount n => "Thread must have exactly 1 START block (found: " ++ n.repr ++ ")"
  | noFinish => "Thread must have at least 1 END block"
  | undeclared name => "Variable '" ++ name ++ "' is not registered in shared memory"
  | constantRange n => "Value " ++ n.repr ++ " is out of range [0, 2^31-1]"
  | dangling .next target => "Block points to non-existent next block " ++ target.text
  | dangling .onTrue target => "Branch 'True' points to non-existent block " ++ target.text
  | dangling .onFalse target => "Branch 'False' points to non-existent block " ++ target.text

/-- The part of a program that a remark is about. -/
structure Site where
  /-- The thread, unless the remark is about the whole program. -/
  thread : Option ThreadId
  /-- The block, unless the remark is about the whole thread. -/
  block : Option BlockId
  deriving DecidableEq

/-- A remark with its site in front: `[T1, B2] Thread is empty`. -/
def Site.annotate (site : Site) (remark : String) : String :=
  match site.thread, site.block with
  | some t, some b => "[" ++ t.text ++ ", " ++ b.text ++ "] " ++ remark
  | some t, none => "[" ++ t.text ++ "] " ++ remark
  | none, some b => "[" ++ b.text ++ "] " ++ remark
  | none, none => remark

/-- A defect and where it is. -/
structure Finding where
  /-- Where the defect is. -/
  site : Site
  /-- What is wrong there. -/
  defect : Defect
  deriving DecidableEq

/-- A finding as text. -/
def Finding.text (f : Finding) : String :=
  f.site.annotate f.defect.message

/-- The defects of a program as a whole. -/
def Program.ownDefects (p : Program) : List Defect :=
  (if 1 ≤ p.size ∧ p.size ≤ maxThreads then [] else [.threadCount p.size]) ++
  (if p.declared.length ≤ maxVariables then [] else [.variableCount p.declared.length])

namespace Thread

/-- The number of entry blocks. -/
def startCount (t : Thread) : Nat :=
  t.blocks.countP (·.action.isStart)

/-- The defects of a thread as a whole. -/
def ownDefects (t : Thread) : List Defect :=
  if t.size = 0 then [.emptyThread]
  else
    (if t.size ≤ maxBlocks then [] else [.blockCount]) ++
    (if t.startCount = 1 then [] else [.startCount t.startCount]) ++
    (if t.blocks.any (·.action.isFinish) then [] else [.noFinish])

/-- The defects of one action in a thread of a program: undeclared variables, a constant that is too
large, and missing targets. -/
def actionDefects (p : Program) (t : Thread) (a : Action) : List Defect :=
  ((a.names.filter (!p.declares ·)).map .undeclared) ++
  ((a.constant?.toList.filter (maxConstant < ·)).map .constantRange) ++
  ((a.exits.filter (·.2 ∉ t.nodes)).map fun (exit, target) => .dangling exit target)

/-- All findings in a thread of a program. -/
def findings (p : Program) (t : Thread) : List Finding :=
  (t.ownDefects.map (⟨⟨some t.id, none⟩, ·⟩)) ++
  t.blocks.flatMap fun b => (t.actionDefects p b.action).map (⟨⟨some t.id, some b.id⟩, ·⟩)

end Thread

/-- All findings in a program. The program is well formed if there are none. -/
def Program.findings (p : Program) : List Finding :=
  (p.ownDefects.map (⟨⟨none, none⟩, ·⟩)) ++ p.threadList.flatMap (Thread.findings p)

end Flowchart
