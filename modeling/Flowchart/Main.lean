import Flowchart.Demo.Report

/-!
# The command line

Runs the demonstration. The exploration is taken turn by turn, so that it can be stopped when the
time is over.
-/

namespace Flowchart.Demo

/-- Print a line; entries of the journal only if they are asked for. -/
def printLine (threshold : Threshold) : Line → IO Unit
  | .say text => IO.println text
  | .note event =>
    if threshold.any (·.admits event.level) then
      IO.println ("[" ++ event.level.name ++ "] " ++ event.message)
    else pure ()

/-- Milliseconds as seconds with three places after the point. -/
def secondsText (millis : Nat) : String :=
  let places := (millis % 1000).repr
  (millis / 1000).repr ++ "." ++ String.ofList (List.replicate (3 - places.length) '0') ++ places

/-- Explore until there is a run; the stop signal is raised at the deadline. -/
partial def exploreUntil (q : Problem) (deadline : Nat) (e : Exploration) : IO Run := do
  let now ← IO.monoMsNow
  match q.progress (deadline ≤ now) e with
  | .done run => return run
  | .more e => exploreUntil q deadline e

/-- Run the demonstration that a command line asks for, and give its exit code. -/
def run (words : List String) : IO UInt32 := do
  match prepare words with
  | .error refusal =>
    IO.eprintln refusal.message
    return refusal.exitCode.toUInt32
  | .ok d =>
    let started ← IO.monoMsNow
    d.preface.forM (printLine d.threshold)
    let now ← IO.monoMsNow
    let session := (Session.new d.problem).clear
    let r ← exploreUntil d.problem (now + d.options.timeout) session.start
    (d.conclusion r (session.record r)).forM (printLine d.threshold)
    let ended ← IO.monoMsNow
    IO.println ("Done in " ++ secondsText (ended - started) ++ " s")
    return 0

end Flowchart.Demo

/-- The entry of the program. -/
def main (words : List String) : IO UInt32 :=
  Flowchart.Demo.run words
