import Flowchart.Proofs.Canonical
import Flowchart.Proofs.Verdict

/-!
# What a counterexample says

The schedule of a counterexample is the least of all valid schedules to a violation, and its trace
is what the interpreter does under that schedule: carried out step by step on one and the same
state, the turns of the trace give the states that it lists.

* `Program.Replays`: an execution by the interpreter that passes through the states of a trace.
* `Problem.counterexample_least`, `Problem.counterexample_replays`: the two results.
-/

namespace Flowchart

/-- The interpreter carries out the turns of a trace one after the other. Every thread can run when
its turn comes, no step fails, and the state after each step is the one in the trace. -/
inductive Program.Replays (p : Program) : State → List Turn → State → Prop
  | nil (s : State) : Replays p s [] s
  | cons {s m n : State} {t : ThreadId} {turns : List Turn} (runnable : t ∈ s.snapshot.runnable p)
      (step : p.step s t = .ok m) (rest : Replays p m turns n) :
      Replays p s (⟨t, m.snapshot⟩ :: turns) n

theorem Program.Replays.snoc {p : Program} {s m n : State} {t : ThreadId} {turns : List Turn}
    (h : p.Replays s turns m) (hrun : t ∈ m.snapshot.runnable p) (hstep : p.step m t = .ok n) :
    p.Replays s (turns ++ [⟨t, n.snapshot⟩]) n := by
  induction h with
  | nil s => exact .cons hrun hstep (.nil n)
  | cons hrun' hstep' _ ih => exact .cons hrun' hstep' (ih hrun hstep)

namespace Exploration.Linked

variable {q : Problem} {e : Exploration} {s : State}

theorem length_trace (h : e.Linked q) (hs : s ∈ e.links) : (e.trace s).length = s.depth := by
  rw [← h.length_route hs, route, List.length_map]

theorem replays (h : e.Linked q) (hs : s ∈ e.links) (hroom : s.depth ≤ maxDepth) :
    q.program.Replays q.initial (e.trace s) s := by
  revert hroom
  refine h.induction
    (motive := fun s => s.depth ≤ maxDepth → q.program.Replays q.initial (e.trace s) s) ?_ ?_ s hs
  · intro _
    rw [trace_of_unlinked h.root]
    exact .nil _
  · intro s l hl ih hroom
    -- The parent is less deep by one, so there is room to count the step from it.
    have hdepth := h.depth_of_link hl
    obtain ⟨hrun, b, hb, rfl⟩ := State.mem_successors_iff.1 (h.link s l hl).2
    rw [← State.runnable_snapshot] at hrun
    rw [h.trace_link hl]
    exact (ih (by omega)).snoc hrun (Program.step_eq_ok hb (by omega))

/-- The states on the way to a state have been examined, and in each of them some thread was able
to run. -/
theorem exists_states_before (h : e.Linked q) (hs : s ∈ e.links) :
    ∃ before : List State,
      q.initial.snapshot :: (e.trace s).map (·.state) =
        before.map State.snapshot ++ [s.snapshot] ∧
      ∀ m ∈ before, m ∈ e.examined ∧ m.isComplete = false := by
  refine h.induction (motive := fun s => ∃ before : List State,
    q.initial.snapshot :: (e.trace s).map (·.state) = before.map State.snapshot ++ [s.snapshot] ∧
      ∀ m ∈ before, m ∈ e.examined ∧ m.isComplete = false) ?_ ?_ s hs
  · refine ⟨[], ?_, by simp⟩
    rw [trace_of_unlinked h.root]
    rfl
  · rintro s l hl ⟨before, hbefore, hall⟩
    obtain ⟨hexamined, hturn⟩ := h.link s l hl
    refine ⟨before ++ [l.parent], ?_, ?_⟩
    · rw [h.trace_link hl, List.map_append, ← List.cons_append, hbefore, List.map_append]
      rfl
    · intro m hm
      rcases List.mem_append.1 hm with hm | hm
      · exact hall m hm
      · rw [List.mem_singleton.1 hm]
        have hrun := (State.mem_successors_iff.1 hturn).1
        exact ⟨hexamined, State.isComplete_eq_false_of_mem_runnable hrun⟩

end Exploration.Linked

namespace Problem

variable {q : Problem} {s : State} {m : Mismatch} {limit : Option Nat} {r : Run}
  {c : Counterexample}

/-! ### Reasons -/

theorem agrees_iff {output : List Value} : q.agrees output = true ↔ output <+: q.expected :=
  List.isPrefixOf_iff_prefix

theorem mismatch_eq_divergent_iff (h : q.mismatch? s = some m) :
    m = .divergent ↔ ¬ s.output <+: q.expected := by
  rw [← agrees_iff]
  unfold mismatch? at h
  split at h
  · next hdiverges =>
    cases h
    simpa using hdiverges
  · next hagrees =>
    split at h
    · cases h
      simpa using hagrees
    · cases h

theorem truncated_of_mismatch? (h : q.mismatch? s = some .truncated) :
    s.isComplete = true ∧ s.output <+: q.expected ∧ s.output ≠ q.expected := by
  rw [← agrees_iff]
  unfold mismatch? at h
  split at h
  · cases h
  · next hagrees =>
    split at h
    · next hshort =>
      rw [Bool.and_eq_true, bne_iff_ne] at hshort
      exact ⟨hshort.1, by simpa using hagrees, hshort.2⟩
    · cases h

/-! ### The two results -/

/-- **The schedule of a counterexample is the least one.** It is valid and leads to the state of the
counterexample, which is a violation, and it is no later in the order of schedules, in particular no
longer, than any valid schedule to a violation. -/
theorem counterexample_least (q : Problem) (limit : Option Nat) (r : Run) (c : Counterexample)
    (h : q.Ends limit r) (hc : r.verdict = .refuted c) :
    (∃ s, q.Leads c.schedule s ∧ q.Violates s ∧ c.state = s.snapshot) ∧
    ∀ w s, q.Leads w s → q.Violates s →
      Schedule.NoLater c.schedule w ∧ c.schedule.length ≤ w.length := by
  obtain ⟨e, s, rest, he, hq, hm, hstate, htrace⟩ := h.exists_attains_of_refuted hc
  have hf := he.frontier
  have hs := hf.mem_of_queue hq
  have hschedule : c.schedule = e.route s := by
    rw [Counterexample.schedule, htrace, Exploration.route]
  rw [hschedule]
  refine ⟨⟨s, hf.leads hs, violates_of_mismatch? hm, hstate⟩, ?_⟩
  intro w x hw hx
  -- The violation at the end of `w` has not been examined, so the queue is in its way.
  have hnoLater := hf.first_noLater hq hw fun hmem => he.not_violates x hmem hx
  exact ⟨hnoLater, hnoLater.length_le⟩

theorem exists_refuted_of_explore {α : Type} {f : Counterexample → α} {a : α} {fuel : Nat}
    (h : (q.explore fuel limit).map (fun r => r.verdict.counterexample?.map f) = some (some a)) :
    ∃ r c, q.Ends limit r ∧ r.verdict = .refuted c ∧ f c = a := by
  obtain ⟨r, hr, hc⟩ := Option.map_eq_some_iff.1 h
  obtain ⟨c, hverdict, hfc⟩ := Option.map_eq_some_iff.1 hc
  refine ⟨r, c, ⟨fuel, hr⟩, ?_, hfc⟩
  cases hv : r.verdict with
  | refuted c' =>
    rw [hv] at hverdict
    cases hverdict
    rfl
  | verified => simp [hv, Verdict.counterexample?] at hverdict
  | stopped => simp [hv, Verdict.counterexample?] at hverdict

theorem race_refuted :
    ∃ r c, Demo.Scenario.race.posed.Ends none r ∧ r.verdict = .refuted c ∧
      c.schedule = [⟨3⟩, ⟨3⟩] ∧ c.state.depth = 2 := by
  have hrun : (Demo.Scenario.race.posed.explore 100 none).map (fun r =>
      r.verdict.counterexample?.map fun c => (c.schedule, c.state.depth)) =
      some (some ([⟨3⟩, ⟨3⟩], 2)) := by
    decide +kernel
  obtain ⟨r, c, hr, hc, hfound⟩ := exists_refuted_of_explore hrun
  obtain ⟨hschedule, hdepth⟩ := Prod.mk.inj hfound
  exact ⟨r, c, hr, hc, hschedule, hdepth⟩

theorem race_least :
    ∃ r c, Demo.Scenario.race.posed.Ends none r ∧ r.verdict = .refuted c ∧
      ∀ w s, Demo.Scenario.race.posed.Leads w s → Demo.Scenario.race.posed.Violates s →
        Schedule.NoLater [⟨3⟩, ⟨3⟩] w := by
  obtain ⟨r, c, hr, hc, hschedule, -⟩ := race_refuted
  refine ⟨r, c, hr, hc, ?_⟩
  intro w s hw hs
  rw [← hschedule]
  exact ((counterexample_least _ none r c hr hc).2 w s hw hs).1

/-- **The trace of a counterexample replays.** Carried out by the interpreter on one state, from the
restored initial state on, it passes through the states that it lists and ends in the reported one,
given that the depth of that state is a 64-bit count as the interpreter keeps it. There are as many
turns as the state is deep, no state before the last has a mismatch or is complete, and the reason
given is the one that applies. -/
theorem counterexample_replays (q : Problem) (limit : Option Nat) (r : Run) (c : Counterexample)
    (h : q.Ends limit r) (hc : r.verdict = .refuted c) :
    (c.state.depth ≤ maxDepth →
      ∃ s, q.program.Replays q.initial.snapshot.restore c.trace s ∧ s.snapshot = c.state) ∧
    c.trace.length = c.state.depth ∧
    (q.initial.snapshot :: c.trace.map (·.state)).getLast? = some c.state ∧
    (∀ g ∈ (q.initial.snapshot :: c.trace.map (·.state)).dropLast,
      q.agrees g.output = true ∧ g.isComplete = false) ∧
    (c.mismatch = .divergent ↔ ¬ c.state.output <+: q.expected) ∧
    (c.mismatch = .truncated →
      c.state.isComplete = true ∧ c.state.output <+: q.expected ∧ c.state.output ≠ q.expected) := by
  obtain ⟨e, s, rest, he, hq, hm, hstate, htrace⟩ := h.exists_attains_of_refuted hc
  have hf := he.frontier
  have hs := hf.mem_of_queue hq
  obtain ⟨before, hbefore, hall⟩ := hf.exists_states_before hs
  rw [hstate, htrace, hbefore]
  refine ⟨?_, hf.length_trace hs, by simp, ?_, mismatch_eq_divergent_iff hm, ?_⟩
  · intro hroom
    rw [State.restore_snapshot]
    exact ⟨s, hf.replays hs hroom, rfl⟩
  · intro g hg
    rw [List.dropLast_concat, List.mem_map] at hg
    obtain ⟨m, hmem, rfl⟩ := hg
    obtain ⟨hexamined, hcomplete⟩ := hall m hmem
    have hclean := he.not_violates m hexamined
    rw [State.isComplete_snapshot]
    refine ⟨agrees_iff.2 ?_, hcomplete⟩
    by_contra hdiverges
    exact hclean (.inl hdiverges)
  · intro htruncated
    rw [htruncated] at hm
    rw [State.isComplete_snapshot]
    exact truncated_of_mismatch? hm

theorem race_replays :
    ∃ r c, Demo.Scenario.race.posed.Ends none r ∧ r.verdict = .refuted c ∧ c.trace.length = 2 ∧
      ∃ s, Demo.Scenario.race.posed.program.Replays
        Demo.Scenario.race.posed.initial.snapshot.restore c.trace s ∧ s.snapshot = c.state := by
  obtain ⟨r, c, hr, hc, -, hdepth⟩ := race_refuted
  obtain ⟨hreplays, hlen, -⟩ := counterexample_replays _ none r c hr hc
  refine ⟨r, c, hr, hc, hlen.trans hdepth, hreplays ?_⟩
  rw [hdepth]
  decide

end Problem

end Flowchart
