import Flowchart.Proofs.Counterexample
import Flowchart.Proofs.Safety
import Flowchart.Proofs.Simulation
import Flowchart.Proofs.Step

/-!
# Declared variables

Declarations are for the diagnosis of a program. Execution starts with the declared variables stored
as zero, and a variable that is not stored reads as zero too. So programs with the same threads pass
through states that cannot be told apart, although the states differ, and different ones among them
are merged.

* `State.Indistinguishable`: the states differ in nothing that a program can notice.
* `Problem.simulation_of_threads_eq`: programs with the same threads simulate each other.
* `Problem.declarations_immaterial`: what exploration reports about them.
-/

namespace Flowchart

/-- The race without its declarations, and with a variable declared that nobody uses. -/
def Demo.undeclaredRace : Program :=
  { Demo.Scenario.race.posed.program with
    declared := ["unused"]
    declared_nodup := List.nodup_singleton _ }

/-- The states have the same counters, input and output, and all variables read the same. A variable
that holds zero may be stored in one of the two only. -/
structure State.Indistinguishable (s s' : State) : Prop where
  counters : s.counters = s'.counters
  get : ∀ name, s.get name = s'.get name
  input : s.input = s'.input
  output : s.output = s'.output

namespace State.Indistinguishable

variable {p p' : Program} {s s' : State}

theorem symm (h : s.Indistinguishable s') : s'.Indistinguishable s where
  counters := h.counters.symm
  get name := (h.get name).symm
  input := h.input.symm
  output := h.output.symm

theorem alike (h : s.Indistinguishable s') (a : Action) : a.Alike s s' where
  get_eq name _ := h.get name
  input_eq _ := h.input

theorem fire (h : s.Indistinguishable s') (t : ThreadId) (b : Block) :
    (s.fire t b).Indistinguishable (s'.fire t b) := by
  have halike := h.alike b.action
  refine ⟨?_, ?_, ?_, ?_⟩
  · show s.counters.insert t _ = s'.counters.insert t _
    rw [h.counters, halike.next?_eq]
  · intro name
    have hname : s.store.getD name 0 = s'.store.getD name 0 := h.get name
    rw [State.get, State.get, store_fire, store_fire, halike.change?_eq]
    cases b.action.change? s' with
    | none => exact hname
    | some c => simp [Std.ExtTreeMap.getD_insert, hname]
  · rw [input_fire, input_fire, h.input]
  · rw [output_fire, output_fire, h.output, halike.printed_eq]

theorem ready_eq (h : s.Indistinguishable s') (hthreads : p.threads = p'.threads) :
    s.ready p = s'.ready p' := by
  have hblock : p.block? = p'.block? := by
    funext t i
    simp only [Program.block?, Program.thread?, hthreads]
  have hready : p.ready? = p'.ready? := by
    funext input t counter
    rw [Program.ready?, Program.ready?, hblock]
  rw [ready, ready, Program.readyAmong, Program.readyAmong, hready, h.counters, h.input]

end State.Indistinguishable

namespace Problem

variable {q q' : Problem}

/-- Every variable reads as zero at the beginning, whether or not it is declared. -/
theorem get_initial (q : Problem) (name : String) : q.initial.get name = 0 := by
  rw [State.get, Std.ExtTreeMap.getD_eq_getD_getElem?, getElem?_store_initial]
  split
  · rfl
  · rfl

theorem simulation_of_threads_eq (hthreads : q.program.threads = q'.program.threads)
    (hinput : q.input = q'.input) (hexpected : q.expected = q'.expected) :
    q.Simulation q' id State.Indistinguishable := by
  refine ⟨⟨?_, ?_, hinput, rfl⟩, ?_, ?_⟩
  · simp only [initial, Program.threadList, hthreads]
  · intro name
    rw [q.get_initial, q'.get_initial]
  · intro s s' t n h hturn
    obtain ⟨b, hb, rfl⟩ := State.exists_ready_of_mem_successors hturn
    rw [h.ready_eq hthreads] at hb
    exact ⟨s'.fire t b, State.mem_successors_of_ready hb, h.fire t b⟩
  · intro s s' h
    exact mismatch?_congr hexpected h.output h.counters

/-- **Declarations do not matter to exploration.** For programs with the same threads, whatever
variables they declare, an exploration that nobody stops ends for one if and only if it ends for the
other. The verdicts are of one kind, and counterexamples have the same schedule, the same reason,
and the same output and counters in their states. There are as many schedules up to each length. -/
theorem declarations_immaterial (q : Problem) (p : Program) (h : p.threads = q.program.threads) :
    ((∃ r, q.Ends none r) ↔ ∃ r, { q with program := p }.Ends none r) ∧
    (∀ r r', q.Ends none r → { q with program := p }.Ends none r' →
      r.verdict.Matches (fun c c' => c.schedule = c'.schedule ∧ c.mismatch = c'.mismatch ∧
        c.state.output = c'.state.output ∧ c.state.counters = c'.state.counters) r'.verdict) ∧
    ∀ k, q.schedulesWithin k = { q with program := p }.schedulesWithin k := by
  have hforth : q.Simulation { q with program := p } id State.Indistinguishable :=
    simulation_of_threads_eq h.symm rfl rfl
  have hback : { q with program := p }.Simulation q id (flip State.Indistinguishable) := by
    have hsimulation : { q with program := p }.Simulation q id State.Indistinguishable :=
      simulation_of_threads_eq h rfl rfl
    have hflip : flip State.Indistinguishable = State.Indistinguishable := by
      funext s s'
      exact propext ⟨fun h => h.symm, fun h => h.symm⟩
    rwa [hflip]
  refine ⟨exists_ends_iff_of_simulation hforth hback, ?_,
    schedulesWithin_eq_of_simulation hforth hback⟩
  intro r r' hr hr'
  refine (hr.matches_of_simulation hforth hback hr').mono ?_
  rintro c c' ⟨hschedule, hmismatch, s, s', hrel, hstate, hstate'⟩
  rw [hstate, hstate']
  refine ⟨hschedule, hmismatch, hrel.output, ?_⟩
  show s.counters.toList.toArray = s'.counters.toList.toArray
  rw [hrel.counters]

theorem undeclared_race_refuted :
    Demo.undeclaredRace.threads = Demo.Scenario.race.posed.program.threads ∧
    ∃ r c, { Demo.Scenario.race.posed with program := Demo.undeclaredRace }.Ends none r ∧
      r.verdict = .refuted c ∧ c.schedule = [⟨3⟩, ⟨3⟩] := by
  obtain ⟨r, c, hr, hc, hschedule, -⟩ := race_refuted
  obtain ⟨hends, hmatches, -⟩ :=
    declarations_immaterial Demo.Scenario.race.posed Demo.undeclaredRace rfl
  obtain ⟨r', hr'⟩ := hends.1 ⟨r, hr⟩
  obtain ⟨c', hc', related⟩ := (hmatches r r' hr hr').exists_of_refuted hc
  exact ⟨rfl, r', c', hr', hc', related.1.symm.trans hschedule⟩

end Problem

end Flowchart
