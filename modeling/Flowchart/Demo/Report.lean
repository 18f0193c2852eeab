import Flowchart.Coverage.Report
import Flowchart.Demo.Options

/-!
# The report of the demonstration

What the demonstration prints: the options and the program before the exploration, the verdict and
the coverage after it. Entries of the journal stand between the lines where they arise.
-/

namespace Flowchart.Demo

/-- A line of the report. -/
inductive Line where
  /-- A line of the report proper. -/
  | say (text : String)
  /-- An entry of the journal. -/
  | note (event : Event)

/-- The text of a line of the report proper. -/
def Line.text? : Line → Option String
  | say text => some text
  | note _ => none

/-- How the demonstration ends when it does not run. -/
inductive Refusal where
  /-- The command line does not make sense. -/
  | usage
  /-- There is no level with this name. -/
  | unknownLevel (name : String)
  /-- The scenario could not be built. -/
  | notBuilt (error : EditError)

/-- The exit code of a refusal. -/
def Refusal.exitCode : Refusal → Nat
  | usage => 2
  | unknownLevel _ => 1
  | notBuilt _ => 1

/-- What to say about a refusal. -/
def Refusal.message : Refusal → String
  | usage =>
    "usage: [race|independent|reader|spin] [--k INT] [--timeout-ms MS] [--log-level LEVEL]"
  | unknownLevel name => "invalid log level '" ++ name ++ "'"
  | notBuilt error => error.message

/-- A demonstration ready to run. -/
structure Setup where
  /-- What was asked for. -/
  options : Options
  /-- At what level the journal is kept. -/
  threshold : Threshold
  /-- The problem to explore. -/
  problem : Problem

/-- Prepare the demonstration that a command line asks for. -/
def prepare (words : List String) : Except Refusal Setup :=
  match Options.ofWords? words with
  | none => .error .usage
  | some options =>
    match threshold? options.journal, options.scenario.problem with
    | none, _ => .error (.unknownLevel options.journal)
    | some _, .error error => .error (.notBuilt error)
    | some threshold, .ok problem => .ok { options, threshold, problem }

/-- A thread in lines: its name, and its blocks further to the right. -/
def threadLines (t : Thread) : List String :=
  ("  " ++ t.name ++ ":") :: t.blocks.map fun b => "    " ++ b.text

/-- The report up to the exploration. -/
def Setup.preface (d : Setup) : List Line :=
  [.say ("args = " ++ d.options.text)] ++
  d.options.scenario.outline.events.map .note ++
  [.say ("Program '" ++ d.problem.program.name ++ "':")] ++
  (d.problem.program.threadList.flatMap threadLines).map .say ++
  [.say ("input = " ++ Snapshot.inputText d.problem.input ++ ", expected = " ++
    Snapshot.outputText d.problem.expected)]

/-- The report from the exploration on, given its run and the session after it. -/
def Setup.conclusion (d : Setup) (r : Run) (session : Session) : List Line :=
  let k := d.options.k
  (d.problem.runEvents r).map .note ++
  [.say ("Outcome: " ++ r.verdict.text),
   .say ("explored " ++ session.explored.repr ++ " states, visited " ++ session.visited.repr)] ++
  (session.counterexample?.toList.flatMap (·.lines)).map .say ++
  (d.problem.totalEvents k).map .note ++
  [.say (session.coverage k).text] ++
  (d.problem.scheduleEvents k).map .note ++
  [.say ("schedules of length <= " ++ k.repr ++ ": " ++ (d.problem.schedulesWithin k).repr)]

/-- The whole report of a demonstration that is never stopped. `none` if the fuel does not suffice
for the exploration. -/
def Setup.report (d : Setup) (fuel : Nat) : Option (List Line) :=
  ((Session.new d.problem).run fuel none).map fun (r, session) =>
    d.preface ++ d.conclusion r session

end Flowchart.Demo
