import Flowchart.Proofs.Census
import Flowchart.Proofs.Level
import Flowchart.Proofs.Verdict

/-!
# Simulations

Two problems can be compared although their states differ. A simulation relates the states of one to
states of the other so that every turn can be followed. Then the schedules of the first problem are
schedules of the second one as well, and whatever goes wrong in the first goes wrong in the second.
Exploration adds nothing to this that depends on how states are stored or merged, because the
schedule of a counterexample is the first of all valid schedules to a violation.

## Main definitions

* `Problem.FirstViolation`: the first schedule to a violation.
* `Problem.Simulation`: every turn of one problem can be followed in the other.
* `Verdict.Matches`, `Counterexample.Corresponds`: verdicts that say the same.

## Main results

* `Problem.Ends.firstViolation`: a counterexample is the first violation.
* `Problem.Simulation.verified`, `Problem.Simulation.exists_refuted`: what verdicts say about a
  simulated problem.
* `Problem.Simulation.schedulesWithin_le`, `Problem.Simulation.totalWithin_le`: what is counted.
* `Problem.Ends.matches_of_simulation`: the verdicts of problems that simulate each other.
-/

namespace Flowchart

/-- The two verdicts are of one kind, and counterexamples are related. -/
inductive Verdict.Matches (rel : Counterexample → Counterexample → Prop) : Verdict → Verdict → Prop
  | verified : Matches rel .verified .verified
  | refuted {c c' : Counterexample} (related : rel c c') : Matches rel (.refuted c) (.refuted c')
  | stopped : Matches rel .stopped .stopped

theorem Verdict.Matches.imp {rel rel' : Counterexample → Counterexample → Prop} {v v' : Verdict}
    (h : v.Matches rel v')
    (himp : ∀ c c', v = .refuted c → v' = .refuted c' → rel c c' → rel' c c') :
    v.Matches rel' v' := by
  cases h with
  | verified => exact .verified
  | refuted related => exact .refuted (himp _ _ rfl rfl related)
  | stopped => exact .stopped

theorem Verdict.Matches.mono {rel rel' : Counterexample → Counterexample → Prop} {v v' : Verdict}
    (h : v.Matches rel v') (himp : ∀ c c', rel c c' → rel' c c') : v.Matches rel' v' :=
  h.imp fun c c' _ _ => himp c c'

theorem Verdict.Matches.eq_verified {rel : Counterexample → Counterexample → Prop}
    {v v' : Verdict} (h : v.Matches rel v') (hv : v = .verified) : v' = .verified := by
  subst hv
  cases h with
  | verified => rfl

theorem Verdict.Matches.exists_of_refuted {rel : Counterexample → Counterexample → Prop}
    {v v' : Verdict} {c : Counterexample} (h : v.Matches rel v') (hv : v = .refuted c) :
    ∃ c', v' = .refuted c' ∧ rel c c' := by
  subst hv
  cases h with
  | refuted related => exact ⟨_, rfl, related⟩

/-- The schedules and the reasons are the same, and the states are related. -/
structure Counterexample.Corresponds (R : State → State → Prop) (c c' : Counterexample) : Prop where
  schedule : c.schedule = c'.schedule
  mismatch : c.mismatch = c'.mismatch
  state : ∃ s s', R s s' ∧ c.state = s.snapshot ∧ c'.state = s'.snapshot

namespace Problem

variable {q q' : Problem} {r r' : Run} {c : Counterexample} {limit : Option Nat}
  {v w : List ThreadId} {s s' : State} {k : Nat}

/-! ### The first violation -/

/-- The schedule leads to a violation, and no schedule before it does. -/
structure FirstViolation (q : Problem) (w : List ThreadId) (s : State) : Prop where
  leads : q.Leads w s
  violates : q.Violates s
  noLater : ∀ v x, q.Leads v x → q.Violates x → Schedule.NoLater w v

theorem FirstViolation.unique (h : q.FirstViolation w s) (h' : q.FirstViolation v s') :
    w = v ∧ s = s' := by
  have heq : w = v := (h.noLater v s' h'.leads h'.violates).antisymm
    (h'.noLater w s h.leads h.violates)
  subst heq
  exact ⟨rfl, h.leads.unique h'.leads⟩

theorem Ends.firstViolation (h : q.Ends limit r) (hc : r.verdict = .refuted c) :
    ∃ s, q.FirstViolation c.schedule s ∧ q.mismatch? s = some c.mismatch ∧
      c.state = s.snapshot := by
  obtain ⟨e, s, rest, he, hq, hm, hstate, htrace⟩ := h.exists_attains_of_refuted hc
  have hschedule : c.schedule = e.route s := congrArg (List.map Turn.thread) htrace
  refine ⟨s, ⟨?_, violates_of_mismatch? hm, ?_⟩, hm, hstate⟩
  · rw [hschedule]
    exact he.frontier.leads (he.frontier.mem_of_queue hq)
  · intro v x hv hx
    rw [hschedule]
    exact he.frontier.first_noLater hq hv fun hmem => he.not_violates x hmem hx

theorem Ends.depth_of_refuted (h : q.Ends limit r) (hc : r.verdict = .refuted c) :
    c.state.depth = c.schedule.length := by
  obtain ⟨s, hs, -, hstate⟩ := h.firstViolation hc
  rw [hstate, ← hs.leads.depth_eq_length]
  rfl

theorem exists_refuted_of_violates (hw : q.Leads w s) (hs : q.Violates s) :
    ∃ r c, q.Ends none r ∧ r.verdict = .refuted c := by
  obtain ⟨r, hr⟩ := exists_ends_of_violates hw hs
  cases hv : r.verdict with
  | verified => exact absurd hs (hr.not_violates_of_verified hv hw)
  | refuted c => exact ⟨r, c, hr, hv⟩
  | stopped => exact absurd hv hr.verdict_ne_stopped

/-- A mismatch is one of output and counters. -/
theorem mismatch?_congr (hexpected : q.expected = q'.expected) (houtput : s.output = s'.output)
    (hcounters : s.counters = s'.counters) : q.mismatch? s = q'.mismatch? s' := by
  have hcomplete : s.isComplete = s'.isComplete := by
    rw [State.isComplete, State.isComplete, hcounters]
  rw [mismatch?, mismatch?, agrees, agrees, hexpected, houtput, hcomplete]

/-! ### Following turns -/

/-- Every turn from a state can be followed from a related one, by the thread that has its part
there. Related states have the same mismatch. -/
structure Simulation (q q' : Problem) (g : ThreadId → ThreadId) (R : State → State → Prop) :
    Prop where
  initial : R q.initial q'.initial
  turn : ∀ s s' t n, R s s' → (t, n) ∈ s.successors q.program →
    ∃ n', (g t, n') ∈ s'.successors q'.program ∧ R n n'
  mismatch : ∀ s s', R s s' → q.mismatch? s = q'.mismatch? s'

namespace Simulation

variable {g : ThreadId → ThreadId} {R : State → State → Prop}

theorem leads (h : q.Simulation q' g R) (hw : q.Leads w s) :
    ∃ s', q'.Leads (w.map g) s' ∧ R s s' := by
  induction hw with
  | nil => exact ⟨q'.initial, .nil, h.initial⟩
  | @snoc w m t b _ hrun hb ih =>
    obtain ⟨m', hm', hrel⟩ := ih
    have hturn := State.mem_successors_iff.2 ⟨hrun, b, hb, rfl⟩
    obtain ⟨n', hn', hrel'⟩ := h.turn m m' t _ hrel hturn
    rw [List.map_append]
    exact ⟨n', Program.Leads.successor hm' hn', hrel'⟩

theorem violates_iff (h : q.Simulation q' g R) (hs : R s s') : q.Violates s ↔ q'.Violates s' := by
  rw [← not_iff_not, ← mismatch?_eq_none_iff, ← mismatch?_eq_none_iff, h.mismatch s s' hs]

theorem verified (h : q.Simulation q' g R) (hq' : q'.Verified) : q.Verified := by
  obtain ⟨hclean, n, hn⟩ := verified_iff.1 hq'
  refine verified_iff.2 ⟨?_, n, ?_⟩
  · intro w s hw hs
    obtain ⟨s', hs', hrel⟩ := h.leads hw
    exact hclean _ s' hs' ((h.violates_iff hrel).1 hs)
  · intro w s hw
    obtain ⟨s', hs', -⟩ := h.leads hw
    rw [← w.length_map g]
    exact hn _ s' hs'

/-- A counterexample is found in the second problem too, no later than where it is in the first. -/
theorem exists_refuted (h : q.Simulation q' g R) (hr : q.Ends limit r)
    (hc : r.verdict = .refuted c) :
    ∃ r' c', q'.Ends none r' ∧ r'.verdict = .refuted c' ∧
      Schedule.NoLater c'.schedule (c.schedule.map g) := by
  obtain ⟨s, hs, -, -⟩ := hr.firstViolation hc
  obtain ⟨s', hs', hrel⟩ := h.leads hs.leads
  have hviolates := (h.violates_iff hrel).1 hs.violates
  obtain ⟨r', c', hr', hc'⟩ := exists_refuted_of_violates hs' hviolates
  obtain ⟨x, hx, -, -⟩ := hr'.firstViolation hc'
  exact ⟨r', c', hr', hc', hx.noLater _ s' hs' hviolates⟩

/-- What is valid in the first problem is valid in the second. -/
theorem schedulesWithin_le (h : q.Simulation q' g R)
    (hg : ∀ v w, q.Valid v → q.Valid w → v.map g = w.map g → v = w) (k : Nat) :
    q.schedulesWithin k ≤ q'.schedulesWithin k := by
  rw [schedulesWithin_eq_ncard, schedulesWithin_eq_ncard]
  refine Set.ncard_le_ncard_of_injOn (List.map g) ?_ ?_ (q'.finite_valid k)
  · rintro w ⟨hlen, s, hw⟩
    obtain ⟨s', hs', -⟩ := h.leads hw
    exact ⟨by rwa [List.length_map], s', hs'⟩
  · intro v hv w hw heq
    exact hg v w hv.2 hw.2 heq

/-- If a related state determines the state, the second problem has as many states at least. -/
theorem totalWithin_le (h : q.Simulation q' g R) (hR : ∀ s n s', R s s' → R n s' → s = n)
    (k : Nat) : q.totalWithin k ≤ q'.totalWithin k := by
  have hfollow : ∀ s ∈ {s | q.Reachable s ∧ s.depth ≤ k}, ∃ s',
      (q'.Reachable s' ∧ s'.depth ≤ k) ∧ R s s' := by
    rintro s ⟨hs, hdepth⟩
    obtain ⟨w, hw⟩ := reachable_iff_leads.1 hs
    obtain ⟨s', hs', hrel⟩ := h.leads hw
    refine ⟨s', ⟨reachable_iff_leads.2 ⟨_, hs'⟩, ?_⟩, hrel⟩
    rw [hs'.depth_eq_length, List.length_map, ← hw.depth_eq_length]
    exact hdepth
  choose! f hf using hfollow
  rw [totalWithin_eq_ncard, totalWithin_eq_ncard]
  refine Set.ncard_le_ncard_of_injOn f (fun s hs => (hf s hs).1) ?_ (q'.finite_reachable k)
  intro s hs n hn heq
  exact hR s n (f n) (heq ▸ (hf s hs).2) (hf n hn).2

end Simulation

/-! ### Simulations both ways -/

section Both

variable {g g' : ThreadId → ThreadId} {R : State → State → Prop} (h : q.Simulation q' g R)
  (h' : q'.Simulation q g' (flip R))

include h h'

/-- The first violation is followed to the first one, if following keeps the order of schedules. -/
theorem FirstViolation.of_simulation
    (horder : ∀ w v, q.Valid w → q'.Valid v → Schedule.NoLater w (v.map g') →
      Schedule.NoLater (w.map g) v) (hs : q.FirstViolation w s) :
    ∃ s', q'.FirstViolation (w.map g) s' ∧ R s s' := by
  obtain ⟨s', hs', hrel⟩ := h.leads hs.leads
  refine ⟨s', ⟨hs', (h.violates_iff hrel).1 hs.violates, ?_⟩, hrel⟩
  intro v x' hv hx'
  obtain ⟨x, hx, hrel'⟩ := h'.leads hv
  exact horder w v ⟨s, hs.leads⟩ ⟨x', hv⟩ (hs.noLater _ x hx ((h'.violates_iff hrel').1 hx'))

theorem exists_ends_of_simulation (hr : q.Ends none r) : ∃ r', q'.Ends none r' := by
  cases hv : r.verdict with
  | verified =>
    obtain ⟨r', hr', -⟩ := h'.verified ⟨r, hr, hv⟩
    exact ⟨r', hr'⟩
  | refuted c =>
    obtain ⟨r', -, hr', -⟩ := h.exists_refuted hr hv
    exact ⟨r', hr'⟩
  | stopped => exact absurd hv hr.verdict_ne_stopped

theorem exists_ends_iff_of_simulation : (∃ r, q.Ends none r) ↔ ∃ r, q'.Ends none r := by
  constructor
  · rintro ⟨r, hr⟩
    exact exists_ends_of_simulation h h' hr
  · rintro ⟨r, hr⟩
    exact exists_ends_of_simulation h' h hr

/-- Whatever becomes of the order of schedules, their lengths are kept. -/
theorem Ends.matches_length_of_simulation (hr : q.Ends none r) (hr' : q'.Ends none r') :
    r.verdict.Matches (fun c c' => c.schedule.length = c'.schedule.length) r'.verdict := by
  cases hv : r.verdict with
  | verified =>
    obtain ⟨r'', hr'', hv''⟩ := h'.verified ⟨r, hr, hv⟩
    rw [hr'.unique hr'', hv'']
    exact .verified
  | refuted c =>
    obtain ⟨r'', c', hr'', hc', hle⟩ := h.exists_refuted hr hv
    obtain rfl := hr'.unique hr''
    obtain ⟨x, d, hx, hd, hge⟩ := h'.exists_refuted hr' hc'
    rw [← hr.unique hx, hv, Verdict.refuted.injEq] at hd
    subst hd
    have hle := hle.length_le
    have hge := hge.length_le
    rw [List.length_map] at hle hge
    rw [hc']
    exact .refuted (by omega)
  | stopped => exact absurd hv hr.verdict_ne_stopped

end Both

section SameThreads

variable {R : State → State → Prop} (h : q.Simulation q' id R) (h' : q'.Simulation q id (flip R))

include h h'

/-- Explorations that nobody stops come to the same verdict if the problems simulate each other. -/
theorem Ends.matches_of_simulation (hr : q.Ends none r) (hr' : q'.Ends none r') :
    r.verdict.Matches (Counterexample.Corresponds R) r'.verdict := by
  refine (hr.matches_length_of_simulation h h' hr').imp ?_
  intro c c' hc hc' _
  obtain ⟨s, hs, hm, hstate⟩ := hr.firstViolation hc
  obtain ⟨s', hs', hm', hstate'⟩ := hr'.firstViolation hc'
  obtain ⟨n, hn, hrel⟩ := hs.of_simulation h h' fun w v _ _ hwv => by simpa using hwv
  rw [List.map_id] at hn
  obtain ⟨hschedule, rfl⟩ := hn.unique hs'
  refine ⟨hschedule, ?_, s, n, hrel, hstate, hstate'⟩
  rw [← Option.some.injEq, ← hm, ← hm', h.mismatch s n hrel]

theorem schedulesWithin_eq_of_simulation (k : Nat) :
    q.schedulesWithin k = q'.schedulesWithin k := by
  apply Nat.le_antisymm
  · exact h.schedulesWithin_le (fun v w _ _ heq => by simpa using heq) k
  · exact h'.schedulesWithin_le (fun v w _ _ heq => by simpa using heq) k

end SameThreads

end Problem

end Flowchart
