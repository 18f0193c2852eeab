import Flowchart.Proofs.Frontier
import Mathlib.Data.Set.Card

/-!
# Runs of the exploration loop

The explorations that the loop passes through satisfy the frontier invariant, and no state examined
on the way violates the problem. A run ends in one of three ways, each of which says what the queue
holds. How much fuel is needed depends on the states that can be examined: if their depths are
bounded there are finitely many routes to them, no two alike, and the loop must come to an end.

## Main definitions

* `Problem.Attains`: the explorations that the loop passes through.
* `Problem.Ends`: a run and how it ends, for whatever fuel suffices.

## Main results

* `Problem.Ends.cases`: the three ways in which a run ends.
* `Problem.exists_ends`: a run ends if the states it can examine are of bounded depth.
-/

namespace Flowchart

theorem Exploration.expand_of_isComplete {s : State} (e : Exploration) (p : Program)
    (h : s.isComplete = true) : e.expand p s = e := by
  have hnone : s.successors p = [] := by
    rw [← List.map_eq_nil_iff, State.map_fst_successors]
    exact s.runnable_eq_nil_of_isComplete p h
  rw [expand, hnone, List.foldl_nil]

namespace Problem

variable {q : Problem} {e e' : Exploration} {r r' : Run} {limit : Option Nat} {fuel : Nat}

/-! ### One turn of the loop -/

/-- A complete state leads nowhere, so it may as well be expanded. -/
theorem progress_eq (q : Problem) (stop : Bool) (e : Exploration) : q.progress stop e =
    if stop then .done ⟨.stopped, e⟩
    else
      match e.queue with
      | [] => .done ⟨.verified, e⟩
      | s :: rest =>
        match q.mismatch? s with
        | some m => .done ⟨.refuted ⟨s.snapshot, m, (e.examine s rest).trace s⟩, e.examine s rest⟩
        | none => .more ((e.examine s rest).expand q.program s) := by
  have hexpand (e : Exploration) (s : State) :
      (if s.isComplete then e else e.expand q.program s) = e.expand q.program s := by
    split
    · next hcomplete => exact (e.expand_of_isComplete q.program hcomplete).symm
    · rfl
  cases stop with
  | true => rfl
  | false =>
    cases hq : e.queue with
    | nil => simp [progress, hq]
    | cons s rest =>
      cases hm : q.mismatch? s with
      | none => simp [progress, hq, hm, hexpand]
      | some m => simp [progress, hq, hm]

theorem progress_eq_more_iff {stop : Bool} :
    q.progress stop e = .more e' ↔ stop = false ∧ ∃ s rest, e.queue = s :: rest ∧
      q.mismatch? s = none ∧ e' = (e.examine s rest).expand q.program s := by
  cases stop with
  | true => simp [progress_eq]
  | false =>
    cases hq : e.queue with
    | nil => simp [progress_eq, hq]
    | cons s rest =>
      cases hm : q.mismatch? s with
      | none => simp [progress_eq, hq, hm, eq_comm]
      | some m => simp [progress_eq, hq, hm]

theorem progress_eq_done_iff {stop : Bool} :
    q.progress stop e = .done r ↔
      (stop = true ∧ r = ⟨.stopped, e⟩) ∨
      (stop = false ∧ e.queue = [] ∧ r = ⟨.verified, e⟩) ∨
      (stop = false ∧ ∃ s rest m, e.queue = s :: rest ∧ q.mismatch? s = some m ∧
        r = ⟨.refuted ⟨s.snapshot, m, (e.examine s rest).trace s⟩, e.examine s rest⟩) := by
  cases stop with
  | true => simp [progress_eq, eq_comm]
  | false =>
    cases hq : e.queue with
    | nil => simp [progress_eq, hq, eq_comm]
    | cons s rest =>
      cases hm : q.mismatch? s with
      | none => simp [progress_eq, hq, hm]
      | some m => simp [progress_eq, hq, hm, eq_comm]

/-! ### The explorations on the way -/

/-- The loop has the exploration before it when it looks at the queue. -/
inductive Attains (q : Problem) : Exploration → Prop
  | begin : Attains q (.begin q.initial)
  | more {e e' : Exploration} (before : Attains q e) (turn : q.progress false e = .more e') :
      Attains q e'

theorem Attains.frontier (h : q.Attains e) : e.Frontier q := by
  induction h with
  | begin => exact .at_begin q
  | more _ turn ih =>
    obtain ⟨-, s, rest, hq, -, rfl⟩ := progress_eq_more_iff.1 turn
    exact ih.after_expand hq

theorem Attains.not_violates (h : q.Attains e) : ∀ s ∈ e.examined, ¬ q.Violates s := by
  induction h with
  | begin => simp [Exploration.begin]
  | more _ turn ih =>
    obtain ⟨-, s, rest, hq, hm, rfl⟩ := progress_eq_more_iff.1 turn
    intro x hx
    rw [Exploration.expand, Exploration.examined_foldl_discover] at hx
    rcases List.mem_cons.1 hx with rfl | hx
    · exact mismatch?_eq_none_iff.1 hm
    · exact ih x hx

theorem explored_of_progress {stop : Bool} (h : q.progress stop e = .more e') :
    e'.explored = e.explored + 1 := by
  obtain ⟨-, s, rest, -, -, rfl⟩ := progress_eq_more_iff.1 h
  simp [Exploration.explored, Exploration.expand, Exploration.examine]

/-- Examined states have different routes, so only so many of them are of limited depth. -/
theorem Attains.explored_le {n : Nat} (h : q.Attains e) (hdepth : ∀ s ∈ e.examined, s.depth ≤ n) :
    e.explored ≤ {w : List ThreadId | w.length ≤ n}.ncard := by
  have hf := h.frontier
  have hnodup : (e.examined.reverse.map e.route).Nodup :=
    hf.nodup_routes.sublist ((List.sublist_append_left _ _).map _)
  have hsub : {w | w ∈ e.examined.reverse.map e.route} ⊆ {w : List ThreadId | w.length ≤ n} := by
    intro w hw
    obtain ⟨s, hs, rfl⟩ := List.mem_map.1 hw
    rw [List.mem_reverse] at hs
    show (e.route s).length ≤ n
    rw [hf.length_route (hf.mem_of_examined hs)]
    exact hdepth s hs
  calc e.explored
      = (e.examined.reverse.map e.route).length := by simp [Exploration.explored]
    _ = {w | w ∈ e.examined.reverse.map e.route}.ncard := by
        rw [← List.coe_toFinset, Set.ncard_coe_finset, List.toFinset_card_of_nodup hnodup]
    _ ≤ _ := Set.ncard_le_ncard hsub (Schedule.finite_length_le n)

/-! ### How a run ends -/

/-- The exploration of the problem ends with the run, given enough fuel. -/
def Ends (q : Problem) (limit : Option Nat) (r : Run) : Prop :=
  ∃ fuel, q.explore fuel limit = some r

/-- A run that is told to stop at once examines nothing. -/
theorem explore_some_zero (q : Problem) (fuel : Nat) :
    q.explore (fuel + 1) (some 0) = some ⟨.stopped, .begin q.initial⟩ :=
  rfl

theorem attains_of_exploreFrom (he : q.Attains e) (h : q.exploreFrom fuel limit e = some r) :
    ∃ e' stop, q.Attains e' ∧ q.progress stop e' = .done r ∧ (limit = none → stop = false) := by
  induction fuel generalizing limit e with
  | zero => cases h
  | succ fuel ih =>
    rw [exploreFrom] at h
    split at h
    · next run hdone =>
      obtain rfl : run = r := by simpa using h
      refine ⟨e, _, he, hdone, ?_⟩
      rintro rfl
      rfl
    · next e' hmore =>
      have hstop := (progress_eq_more_iff.1 hmore).1
      rw [hstop] at hmore
      obtain ⟨e'', stop, he'', hdone, hnone⟩ := ih (he.more hmore) h
      refine ⟨e'', stop, he'', hdone, ?_⟩
      rintro rfl
      exact hnone rfl

/-- A run is stopped, or finds its queue empty, or finds a mismatch in the first state of it. -/
theorem Ends.cases (h : q.Ends limit r) :
    ∃ e, q.Attains e ∧
      ((limit ≠ none ∧ r = ⟨.stopped, e⟩) ∨
      (e.queue = [] ∧ r = ⟨.verified, e⟩) ∨
      ∃ s rest m, e.queue = s :: rest ∧ q.mismatch? s = some m ∧
        r = ⟨.refuted ⟨s.snapshot, m, e.trace s⟩, e.examine s rest⟩) := by
  obtain ⟨fuel, hrun⟩ := h
  obtain ⟨e, stop, he, hdone, hnone⟩ := attains_of_exploreFrom .begin hrun
  refine ⟨e, he, ?_⟩
  rcases progress_eq_done_iff.1 hdone with ⟨hstop, rfl⟩ | ⟨-, hq, rfl⟩ |
    ⟨-, s, rest, m, hq, hm, rfl⟩
  · refine .inl ⟨?_, rfl⟩
    intro hlimit
    rw [hnone hlimit] at hstop
    cases hstop
  · exact .inr (.inl ⟨hq, rfl⟩)
  · have hs := he.frontier.mem_of_queue hq
    have htrace := he.frontier.trace_examine hs s rest
    exact .inr (.inr ⟨s, rest, m, hq, hm, by rw [htrace]⟩)

/-- A counterexample is the first state of the queue of an exploration on the way, with the trace it
has there. -/
theorem Ends.exists_attains_of_refuted {c : Counterexample} (h : q.Ends limit r)
    (hc : r.verdict = .refuted c) :
    ∃ e s rest, q.Attains e ∧ e.queue = s :: rest ∧ q.mismatch? s = some c.mismatch ∧
      c.state = s.snapshot ∧ c.trace = e.trace s := by
  obtain ⟨e, he, ⟨-, rfl⟩ | ⟨-, rfl⟩ | ⟨s, rest, m, hq, hm, rfl⟩⟩ := h.cases
  · cases hc
  · cases hc
  · cases hc
    exact ⟨e, s, rest, he, hq, hm, rfl, rfl⟩

theorem Ends.attains_of_verified (h : q.Ends limit r) (hr : r.verdict = .verified) :
    q.Attains r.exploration ∧ r.exploration.queue = [] := by
  obtain ⟨e, he, ⟨-, rfl⟩ | ⟨hq, rfl⟩ | ⟨s, rest, m, -, -, rfl⟩⟩ := h.cases
  · cases hr
  · exact ⟨he, hq⟩
  · cases hr

theorem exploreFrom_mono {fuel' : Nat} (h : q.exploreFrom fuel limit e = some r)
    (hle : fuel ≤ fuel') : q.exploreFrom fuel' limit e = some r := by
  induction fuel generalizing fuel' limit e with
  | zero => cases h
  | succ fuel ih =>
    obtain ⟨k, rfl⟩ : ∃ k, fuel' = k + 1 := ⟨fuel' - 1, by omega⟩
    rw [exploreFrom] at h ⊢
    split at h
    · exact h
    · exact ih h (by omega)

/-- Fuel decides only whether there is a run, not which. -/
theorem Ends.unique (h : q.Ends limit r) (h' : q.Ends limit r') : r = r' := by
  obtain ⟨fuel, hrun⟩ := h
  obtain ⟨fuel', hrun'⟩ := h'
  have hmax := exploreFrom_mono hrun (Nat.le_max_left fuel fuel')
  have hmax' := exploreFrom_mono hrun' (Nat.le_max_right fuel fuel')
  exact Option.some.inj (hmax.symm.trans hmax')

/-- The loop ends if no exploration on its way has examined more than `n` states. -/
theorem exists_exploreFrom {n : Nat} (hn : ∀ e, q.Attains e → e.explored ≤ n) (he : q.Attains e)
    (hfuel : n < e.explored + fuel) : ∃ r, q.exploreFrom fuel none e = some r := by
  induction fuel generalizing e with
  | zero =>
    have := hn e he
    omega
  | succ fuel ih =>
    rw [exploreFrom]
    cases hturn : q.progress (none == some 0) e with
    | done run => exact ⟨run, rfl⟩
    | more e' =>
      have hexplored := explored_of_progress hturn
      exact ih (he.more hturn) (by omega)

theorem exists_ends (n : Nat) (hn : ∀ e, q.Attains e → ∀ s ∈ e.examined, s.depth ≤ n) :
    ∃ r, q.Ends none r := by
  have hbound := fun e (he : q.Attains e) => he.explored_le (hn e he)
  have hfuel : {w : List ThreadId | w.length ≤ n}.ncard <
      (Exploration.begin q.initial).explored + ({w : List ThreadId | w.length ≤ n}.ncard + 1) := by
    omega
  obtain ⟨r, hr⟩ := exists_exploreFrom hbound .begin hfuel
  exact ⟨r, _, hr⟩

end Problem

end Flowchart
