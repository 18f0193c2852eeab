import Flowchart.Demo.Scenario
import Flowchart.Proofs.Run

/-!
# What a verdict means

An exploration that nobody stops refutes a problem if and only if some valid schedule leads to a
state that violates it, and then it ends even if there are infinitely many states. It verifies the
problem if and only if there is no such schedule and the valid schedules are of bounded length.

Every state is checked as soon as it is examined, while its threads may still have much to do. Where
every schedule can be completed this is no stricter than to look at the finished schedules only,
since output is never taken back.
-/

namespace Flowchart

/-- The problem of a scenario. All of them can be built. -/
def Demo.Scenario.posed (s : Demo.Scenario) : Problem :=
  s.problem.toOption.get (by cases s <;> decide +kernel)

/-- A thread that waits for a flag that nobody sets, beside one that prints what is not expected.
There is no end to the states. -/
def Demo.restless : Problem where
  program := (Demo.Outline.program
    { name := "restless"
      declared := ["f", "a"]
      threads := [
        (⟨1⟩, [⟨⟨0⟩, .start ⟨1⟩⟩, ⟨⟨1⟩, .branch ⟨"f", .equal, 1⟩ ⟨2⟩ ⟨1⟩⟩, ⟨⟨2⟩, .finish⟩]),
        (⟨2⟩, Demo.printer "a" 1)] }).toOption.get (by decide +kernel)
  input := []
  expected := []

namespace Problem

variable {q : Problem} {e : Exploration} {r : Run} {limit : Option Nat} {c : Counterexample}
  {w : List ThreadId} {s : State}

/-- The exploration of the problem ends and finds nothing wrong. -/
def Verified (q : Problem) : Prop :=
  ∃ r, q.Ends none r ∧ r.verdict = .verified

/-! ### What the three endings say -/

theorem Ends.verdict_ne_stopped (h : q.Ends none r) : r.verdict ≠ .stopped := by
  obtain ⟨e, -, ⟨hlimit, -⟩ | ⟨-, rfl⟩ | ⟨s, rest, m, -, -, rfl⟩⟩ := h.cases
  · exact absurd rfl hlimit
  · exact Verdict.noConfusion
  · exact Verdict.noConfusion

theorem Ends.violates_of_refuted (h : q.Ends limit r) (hc : r.verdict = .refuted c) :
    ∃ w s, q.Leads w s ∧ q.Violates s ∧ c.state = s.snapshot := by
  obtain ⟨e, s, rest, he, hq, hm, hstate, -⟩ := h.exists_attains_of_refuted hc
  have hleads := he.frontier.leads (he.frontier.mem_of_queue hq)
  exact ⟨e.route s, s, hleads, violates_of_mismatch? hm, hstate⟩

/-- A run that verifies its problem has examined every state there is. -/
theorem Ends.mem_examined_of_verified (h : q.Ends limit r) (hr : r.verdict = .verified)
    (hw : q.Leads w s) : s ∈ r.exploration.examined := by
  obtain ⟨he, hq⟩ := h.attains_of_verified hr
  exact he.frontier.mem_examined_of_queue_eq_nil hq hw

theorem Ends.not_violates_of_verified (h : q.Ends limit r) (hr : r.verdict = .verified)
    (hw : q.Leads w s) : ¬ q.Violates s :=
  (h.attains_of_verified hr).1.not_violates s (h.mem_examined_of_verified hr hw)

theorem Ends.bounded_of_verified (h : q.Ends limit r) (hr : r.verdict = .verified) :
    q.Bounded := by
  -- The depths of finitely many examined states have a bound, and a depth is a length.
  obtain ⟨n, hn⟩ : ∃ n, ∀ s ∈ r.exploration.examined, s.depth ≤ n := by
    refine ⟨(r.exploration.examined.map State.depth).foldr max 0, ?_⟩
    intro s hs
    exact List.le_max_of_le' 0 (List.mem_map_of_mem hs) le_rfl
  refine ⟨n, ?_⟩
  intro w s hw
  rw [← hw.depth_eq_length]
  exact hn s (h.mem_examined_of_verified hr hw)

/-! ### When there is a run -/

/-- As long as a violation has not been examined, nothing deeper has been examined either. -/
theorem Attains.depth_le_of_violates (h : q.Attains e) (hw : q.Leads w s) (hs : q.Violates s)
    {x : State} (hx : x ∈ e.examined) : x.depth ≤ w.length := by
  have hnew : s ∉ e.examined := fun hmem => h.not_violates s hmem hs
  exact h.frontier.depth_le_of_not_mem hw hnew hx

theorem exists_ends_of_violates (hw : q.Leads w s) (hs : q.Violates s) : ∃ r, q.Ends none r :=
  exists_ends w.length fun _ he _ hx => he.depth_le_of_violates hw hs hx

theorem exists_ends_of_bounded (h : q.Bounded) : ∃ r, q.Ends none r := by
  obtain ⟨n, hn⟩ := h
  refine exists_ends n ?_
  intro e he x hx
  have hmem := he.frontier.mem_of_examined hx
  rw [← he.frontier.length_route hmem]
  exact hn _ _ (he.frontier.leads hmem)

theorem verified_iff : q.Verified ↔ (∀ w s, q.Leads w s → ¬ q.Violates s) ∧ q.Bounded := by
  constructor
  · rintro ⟨r, hr, hv⟩
    exact ⟨fun w s => hr.not_violates_of_verified hv, hr.bounded_of_verified hv⟩
  · rintro ⟨hclean, hbounded⟩
    obtain ⟨r, hr⟩ := exists_ends_of_bounded hbounded
    refine ⟨r, hr, ?_⟩
    cases hv : r.verdict with
    | verified => rfl
    | refuted c =>
      obtain ⟨w, s, hw, hs, -⟩ := hr.violates_of_refuted hv
      exact absurd hs (hclean w s hw)
    | stopped => exact absurd hv hr.verdict_ne_stopped

/-- **The verdict is sound and complete.** A violation that some valid schedule leads to is found,
however many states there are; without one, and with schedules of bounded length, the problem is
verified; and it is verified in no other case. -/
theorem verdict_sound_and_complete (q : Problem) :
    ((∃ w s, q.Leads w s ∧ q.Violates s) →
      ∃ r c, q.Ends none r ∧ r.verdict = .refuted c ∧
        ∃ w s, q.Leads w s ∧ q.Violates s ∧ c.state = s.snapshot) ∧
    ((∀ w s, q.Leads w s → ¬ q.Violates s) → q.Bounded →
      ∃ r, q.Ends none r ∧ r.verdict = .verified ∧ r.verdict.counterexample? = none) ∧
    (∀ r, q.Ends none r → r.verdict = .verified →
      (∀ w s, q.Leads w s → ¬ q.Violates s) ∧ q.Bounded) := by
  refine ⟨?_, ?_, ?_⟩
  · rintro ⟨w, s, hw, hs⟩
    obtain ⟨r, hr⟩ := exists_ends_of_violates hw hs
    cases hv : r.verdict with
    | verified => exact absurd hs (hr.not_violates_of_verified hv hw)
    | refuted c => exact ⟨r, c, hr, hv, hr.violates_of_refuted hv⟩
    | stopped => exact absurd hv hr.verdict_ne_stopped
  · intro hclean hbounded
    obtain ⟨r, hr, hv⟩ := verified_iff.2 ⟨hclean, hbounded⟩
    exact ⟨r, hr, hv, by rw [hv]; rfl⟩
  · intro r hr hv
    exact verified_iff.1 ⟨r, hr, hv⟩

theorem restless_violated :
    ∃ s, Demo.restless.Leads [⟨2⟩, ⟨2⟩, ⟨2⟩] s ∧ Demo.restless.Violates s := by
  have hprint : (Demo.restless.after? [⟨2⟩, ⟨2⟩, ⟨2⟩]).map (·.output) = some [1] := by
    decide +kernel
  obtain ⟨s, hs, hout⟩ := Option.map_eq_some_iff.1 hprint
  refine ⟨s, Program.leads_iff_replay?.2 hs, .inl ?_⟩
  rw [hout]
  decide +kernel

theorem independent_verified :
    ∃ r, Demo.Scenario.independent.posed.Ends none r ∧ r.verdict = .verified ∧
      ∀ s ∈ r.exploration.examined,
        s.runnable Demo.Scenario.independent.posed.program = [] → s.isComplete = true := by
  have hrun : (Demo.Scenario.independent.posed.explore 100 none).map (fun r =>
      decide (r.verdict = .verified ∧ ∀ s ∈ r.exploration.examined,
        s.runnable Demo.Scenario.independent.posed.program = [] → s.isComplete = true)) =
      some true := by
    decide +kernel
  obtain ⟨r, hr, hall⟩ := Option.map_eq_some_iff.1 hrun
  exact ⟨r, ⟨100, hr⟩, of_decide_eq_true hall⟩

theorem verdicts_of_restless_and_independent :
    ((∃ w s, Demo.restless.Leads w s ∧ Demo.restless.Violates s) ∧
      ∃ r c, Demo.restless.Ends none r ∧ r.verdict = .refuted c) ∧
    (∀ w s, Demo.Scenario.independent.posed.Leads w s →
      ¬ Demo.Scenario.independent.posed.Violates s) ∧
    Demo.Scenario.independent.posed.Bounded ∧
    ∃ r, Demo.Scenario.independent.posed.Ends none r ∧ r.verdict.counterexample? = none := by
  obtain ⟨s, hs, hviolates⟩ := restless_violated
  obtain ⟨r, hr, hv, -⟩ := independent_verified
  obtain ⟨hrefuted, -, -⟩ := verdict_sound_and_complete Demo.restless
  obtain ⟨-, hverified, hsound⟩ := verdict_sound_and_complete Demo.Scenario.independent.posed
  obtain ⟨r', c, hr', hc, -⟩ := hrefuted ⟨_, s, hs, hviolates⟩
  obtain ⟨hclean, hbounded⟩ := hsound r hr hv
  obtain ⟨r'', hr'', -, hnone⟩ := hverified hclean hbounded
  exact ⟨⟨⟨_, s, hs, hviolates⟩, r', c, hr', hc⟩, hclean, hbounded, r'', hr'', hnone⟩

/-! ### Finished schedules -/

/-- Where no schedule is stuck before all threads have ended, every schedule can be completed. -/
theorem exists_complete (hbounded : q.Bounded)
    (hlive : ∀ w s, q.Leads w s → s.runnable q.program = [] → s.isComplete = true)
    (hw : q.Leads w s) :
    ∃ w' s', q.Leads w' s' ∧ s'.isComplete = true ∧ s.output <+: s'.output := by
  obtain ⟨n, hn⟩ := hbounded
  -- Each turn brings the schedule closer to the length that none exceeds.
  induction hk : n - w.length using Nat.strong_induction_on generalizing w s with
  | _ k ih =>
    cases hrun : s.runnable q.program with
    | nil => exact ⟨w, s, hw, hlive w s hw hrun, List.prefix_rfl⟩
    | cons t others =>
      have ht : t ∈ s.runnable q.program := by simp [hrun]
      obtain ⟨b, hb⟩ := State.mem_runnable_iff.1 ht
      have hnext : q.Leads (w ++ [t]) (s.fire t b) := hw.snoc ht (State.current_of_mem_ready hb)
      have hlen := hn _ _ hnext
      rw [List.length_append, List.length_singleton] at hlen
      obtain ⟨w', s', hw', hcomplete, hprefix⟩ := ih _
        (by rw [List.length_append, List.length_singleton]; omega) hnext rfl
      exact ⟨w', s', hw', hcomplete, (State.output_prefix_fire s t b).trans hprefix⟩

theorem verified_iff_output_eq (hbounded : q.Bounded)
    (hlive : ∀ w s, q.Leads w s → s.runnable q.program = [] → s.isComplete = true) :
    q.Verified ↔ ∀ w s, q.Leads w s → s.isComplete = true → s.output = q.expected := by
  rw [verified_iff, and_iff_left hbounded]
  constructor
  · intro hclean w s hw hcomplete
    by_contra hne
    exact hclean w s hw (.inr ⟨hcomplete, hne⟩)
  · intro hfinal w s hw hviolates
    rcases hviolates with hprefix | ⟨hcomplete, hne⟩
    · obtain ⟨w', s', hw', hcomplete, hout⟩ := exists_complete hbounded hlive hw
      exact hprefix (hfinal w' s' hw' hcomplete ▸ hout)
    · exact hne (hfinal w s hw hcomplete)

/-- **Checking every state is checking the finished schedules.** Where schedules are of bounded
length and none is stuck before all threads have ended, a problem is verified if and only if every
finished schedule prints what is expected. So a program can be verified on an input for one expected
output at most, and for one if and only if all finished schedules print the same. -/
theorem verified_iff_finished_outputs (q : Problem) (hbounded : q.Bounded)
    (hlive : ∀ w s, q.Leads w s → s.runnable q.program = [] → s.isComplete = true) :
    (∀ o, { q with expected := o }.Verified ↔
      ∀ w s, q.Leads w s → s.isComplete = true → s.output = o) ∧
    (∀ o o', { q with expected := o }.Verified → { q with expected := o' }.Verified → o = o') ∧
    ((∃ o, { q with expected := o }.Verified) ↔
      ∀ w s w' s', q.Leads w s → s.isComplete = true → q.Leads w' s' → s'.isComplete = true →
        s.output = s'.output) := by
  -- Which schedules are valid does not depend on what is expected.
  have hiff (o : List Value) : { q with expected := o }.Verified ↔
      ∀ w s, q.Leads w s → s.isComplete = true → s.output = o :=
    verified_iff_output_eq (q := { q with expected := o }) hbounded hlive
  -- There is a finished schedule to compare with: the empty one can be completed.
  obtain ⟨w₀, s₀, hw₀, hcomplete₀, -⟩ :=
    exists_complete hbounded hlive (.nil : q.Leads [] q.initial)
  refine ⟨hiff, ?_, ?_⟩
  · intro o o' ho ho'
    rw [← (hiff o).1 ho w₀ s₀ hw₀ hcomplete₀, ← (hiff o').1 ho' w₀ s₀ hw₀ hcomplete₀]
  · constructor
    · rintro ⟨o, ho⟩ w s w' s' hw hcomplete hw' hcomplete'
      rw [(hiff o).1 ho w s hw hcomplete, (hiff o).1 ho w' s' hw' hcomplete']
    · intro hsame
      refine ⟨s₀.output, (hiff _).2 ?_⟩
      intro w s hw hcomplete
      exact hsame w s w₀ s₀ hw hcomplete hw₀ hcomplete₀

theorem independent_outputs :
    Demo.Scenario.independent.posed.Bounded ∧
    (∀ w s, Demo.Scenario.independent.posed.Leads w s →
      s.runnable Demo.Scenario.independent.posed.program = [] → s.isComplete = true) ∧
    ∀ o, { Demo.Scenario.independent.posed with expected := o }.Verified ↔ o = [42, 42] := by
  obtain ⟨r, hr, hv, hlive⟩ := independent_verified
  have hbounded := hr.bounded_of_verified hv
  have hlive : ∀ w s, Demo.Scenario.independent.posed.Leads w s →
      s.runnable Demo.Scenario.independent.posed.program = [] → s.isComplete = true :=
    fun w s hw => hlive s (hr.mem_examined_of_verified hv hw)
  have hself : { Demo.Scenario.independent.posed with expected := [42, 42] }.Verified :=
    have hexpected : Demo.Scenario.independent.posed.expected = [42, 42] := by decide +kernel
    hexpected ▸ ⟨r, hr, hv⟩
  obtain ⟨-, hunique, -⟩ := verified_iff_finished_outputs _ hbounded hlive
  refine ⟨hbounded, hlive, ?_⟩
  intro o
  constructor
  · intro ho
    exact hunique o [42, 42] ho hself
  · rintro rfl
    exact hself

end Problem

end Flowchart
