import Flowchart.Coverage.Report
import Flowchart.Demo.Report
import Flowchart.Main
import Flowchart.Program.Defect
import Flowchart.Proofs.Bench
import Flowchart.Proofs.Bookkeeping
import Flowchart.Proofs.Cancellation
import Flowchart.Proofs.Canonical
import Flowchart.Proofs.Census
import Flowchart.Proofs.Confluence
import Flowchart.Proofs.Conservation
import Flowchart.Proofs.Construction
import Flowchart.Proofs.ControlFlow
import Flowchart.Proofs.Counterexample
import Flowchart.Proofs.Coverage
import Flowchart.Proofs.Declaration
import Flowchart.Proofs.Diagnosis
import Flowchart.Proofs.Editing
import Flowchart.Proofs.Expansion
import Flowchart.Proofs.Footprint
import Flowchart.Proofs.Frontier
import Flowchart.Proofs.Level
import Flowchart.Proofs.Lockstep
import Flowchart.Proofs.Lookup
import Flowchart.Proofs.LoopFree
import Flowchart.Proofs.Map
import Flowchart.Proofs.MoreInput
import Flowchart.Proofs.Relabelling
import Flowchart.Proofs.Residue
import Flowchart.Proofs.Run
import Flowchart.Proofs.Safety
import Flowchart.Proofs.Schedule
import Flowchart.Proofs.Sequential
import Flowchart.Proofs.Simulation
import Flowchart.Proofs.StateText
import Flowchart.Proofs.Step
import Flowchart.Proofs.StraightLine
import Flowchart.Proofs.Sweep
import Flowchart.Proofs.Undo
import Flowchart.Proofs.Verdict
