import Flowchart.Proofs.Counterexample
import Flowchart.Proofs.Coverage

/-!
# Runs that are stopped

A program and an input determine the order in which states are examined. What is expected decides
only where a run ends, and so does the moment at which it is told to stop. So a run that is stopped
is the beginning of the run that nobody stops, and nothing of it is left in the next run of the same
session.

## Main definitions

* `Problem.loopAt?`, `Problem.examined?`: the run that nobody stops, turn by turn. It need not end.
* `Problem.CutAt`: how a run that is stopped compares with it.
* `Session.Request`, `Session.after?`: the history of a session.

## Main results

* `Problem.ends_iff`: every run ends at a turn of the loop that nobody stops.
* `Problem.Ends.getElem?_examined`: the states that a run examines.
* `Problem.cancellation_cuts`: what this says about runs that are stopped and runs after them.
-/

namespace Flowchart

namespace Problem

variable {q q' : Problem} {e e' : Exploration} {r r' : Run} {limit : Option Nat} {n m i : Nat}
  {s : State} {c : Counterexample}

/-- The exploration at the beginning of a turn of the loop, if nobody stops it and it comes to that
turn. Turns are counted from zero. -/
def loopAt? (q : Problem) : Nat → Option Exploration
  | 0 => some (.begin q.initial)
  | n + 1 => (q.loopAt? n).bind fun e =>
    match q.progress false e with
    | .more e => some e
    | .done _ => none

/-- The state that is examined in a turn of the loop, if nobody stops it and it comes to that
turn. -/
def examined? (q : Problem) (n : Nat) : Option State :=
  (q.loopAt? n).bind (·.queue.head?)

/-! ### The loop that nobody stops -/

theorem loopAt?_succ_eq_some_iff :
    q.loopAt? (n + 1) = some e' ↔ ∃ e, q.loopAt? n = some e ∧ q.progress false e = .more e' := by
  rw [loopAt?, Option.bind_eq_some_iff]
  refine exists_congr fun e => and_congr_right fun _ => ?_
  cases q.progress false e with
  | more e => simp
  | done run => simp

/-- The loop comes to all turns before one that it comes to. -/
theorem exists_loopAt?_of_le (h : q.loopAt? n = some e) (hm : m ≤ n) :
    ∃ e', q.loopAt? m = some e' := by
  induction n generalizing e with
  | zero => exact ⟨e, by rw [Nat.le_zero.1 hm, h]⟩
  | succ n ih =>
    by_cases heq : m = n + 1
    · exact ⟨e, heq ▸ h⟩
    · obtain ⟨e₀, he₀, -⟩ := loopAt?_succ_eq_some_iff.1 h
      exact ih he₀ (by omega)

/-- A turn that does not end the run examines a state. -/
theorem examined?_of_loopAt?_succ (h : q.loopAt? n = some e) (h' : q.loopAt? (n + 1) = some e') :
    ∃ s, q.examined? n = some s ∧ e'.examined = s :: e.examined := by
  obtain ⟨e₀, he₀, hmore⟩ := loopAt?_succ_eq_some_iff.1 h'
  obtain rfl : e = e₀ := Option.some.inj (h.symm.trans he₀)
  obtain ⟨-, s, rest, hq, -, rfl⟩ := progress_eq_more_iff.1 hmore
  refine ⟨s, by simp [examined?, h, hq], ?_⟩
  rw [Exploration.expand, Exploration.examined_foldl_discover]
  rfl

theorem explored_of_loopAt? (h : q.loopAt? n = some e) : e.explored = n := by
  induction n generalizing e with
  | zero =>
    cases h
    rfl
  | succ n ih =>
    obtain ⟨e₀, he₀, -⟩ := loopAt?_succ_eq_some_iff.1 h
    obtain ⟨s, -, hs⟩ := examined?_of_loopAt?_succ he₀ h
    rw [Exploration.explored, hs, List.length_cons, ← Exploration.explored, ih he₀]

/-- Where the states of all turns before `m` have been examined, those up to turn `m` are examined
when its state has been added. -/
theorem getElem?_reverse_cons_examined (hlen : e.explored = m)
    (hbefore : ∀ i, e.examined.reverse[i]? = if i < m then q.examined? i else none)
    (hs : q.examined? m = some s) (i : Nat) :
    (s :: e.examined).reverse[i]? = if i < m + 1 then q.examined? i else none := by
  rw [Exploration.explored, ← List.length_reverse] at hlen
  rw [List.reverse_cons, List.getElem?_append, hlen, hbefore]
  by_cases hlt : i < m
  · have hlt' : i < m + 1 := by omega
    simp [hlt, hlt']
  · by_cases heq : i = m
    · simp [heq, hs]
    · have hge : ¬ i < m + 1 := by omega
      have hne : i - m ≠ 0 := by omega
      simp [hlt, hge, hne]

/-- At the beginning of a turn the states of all earlier turns have been examined. -/
theorem getElem?_examined_of_loopAt? (h : q.loopAt? n = some e) (i : Nat) :
    e.examined.reverse[i]? = if i < n then q.examined? i else none := by
  induction n generalizing e i with
  | zero =>
    cases h
    rfl
  | succ n ih =>
    obtain ⟨e₀, he₀, -⟩ := loopAt?_succ_eq_some_iff.1 h
    obtain ⟨s, hs, hexamined⟩ := examined?_of_loopAt?_succ he₀ h
    rw [hexamined]
    exact getElem?_reverse_cons_examined (explored_of_loopAt? he₀) (ih he₀) hs i

/-! ### What is expected -/

/-- What is examined does not depend on what is expected. -/
theorem loopAt?_expected_eq {o o' : List Value}
    (h : { q with expected := o }.loopAt? n = some e)
    (h' : { q with expected := o' }.loopAt? n = some e') : e = e' := by
  induction n generalizing e e' with
  | zero =>
    cases h
    cases h'
    rfl
  | succ n ih =>
    obtain ⟨e₀, he₀, hmore⟩ := loopAt?_succ_eq_some_iff.1 h
    obtain ⟨e₀', he₀', hmore'⟩ := loopAt?_succ_eq_some_iff.1 h'
    obtain rfl := ih he₀ he₀'
    obtain ⟨-, s, rest, hq, -, rfl⟩ := progress_eq_more_iff.1 hmore
    obtain ⟨-, s', rest', hq', -, rfl⟩ := progress_eq_more_iff.1 hmore'
    rw [hq, List.cons.injEq] at hq'
    obtain ⟨rfl, rfl⟩ := hq'
    rfl

/-- The states examined for one problem are the first ones examined for the other, if nobody stops
either run. -/
def Precedes (q q' : Problem) : Prop :=
  ∀ n s, q.examined? n = some s → q'.examined? n = some s

theorem precedes_of_loopAt? {o o' : List Value}
    (h : ∀ n e, { q with expected := o }.loopAt? n = some e →
      ∃ e', { q with expected := o' }.loopAt? n = some e') :
    { q with expected := o }.Precedes { q with expected := o' } := by
  intro n s hs
  obtain ⟨e, he, hqueue⟩ := Option.bind_eq_some_iff.1 hs
  obtain ⟨e', he'⟩ := h n e he
  obtain rfl := loopAt?_expected_eq he he'
  exact Option.bind_eq_some_iff.2 ⟨e, he', hqueue⟩

theorem precedes_or_precedes (q : Problem) (o o' : List Value) :
    { q with expected := o }.Precedes { q with expected := o' } ∨
      { q with expected := o' }.Precedes { q with expected := o } := by
  by_cases h : ∀ n e, { q with expected := o }.loopAt? n = some e →
      ∃ e', { q with expected := o' }.loopAt? n = some e'
  · exact .inl (precedes_of_loopAt? h)
  · -- The first run comes to a turn to which the second one does not come.
    push Not at h
    obtain ⟨n, e, he, hnone⟩ := h
    refine .inr (precedes_of_loopAt? ?_)
    intro m e' he'
    refine exists_loopAt?_of_le he ?_
    by_contra hlt
    obtain ⟨e'', he''⟩ := exists_loopAt?_of_le he' (m := n) (by omega)
    exact hnone e'' he''

/-! ### Where a run ends -/

/-- The run ends in turn `m`, where the exploration is `e`: it is told to stop there, or has not
been told to stop so far and comes to an end by itself. -/
def EndsAt (q : Problem) (limit : Option Nat) (m : Nat) (e : Exploration) (r : Run) : Prop :=
  (limit = some m ∧ r = ⟨.stopped, e⟩) ∨
    ((∀ n, limit = some n → m < n) ∧ q.progress false e = .done r)

/-- After one turn there is one turn less to go. -/
theorem endsAt_succ_iff (hlimit : limit ≠ some 0) :
    q.EndsAt limit (m + 1) e r ↔ q.EndsAt (limit.map (· - 1)) m e r := by
  cases limit with
  | none => simp [EndsAt]
  | some n =>
    have hn : n ≠ 0 := by simpa using hlimit
    have hstop : n = m + 1 ↔ n - 1 = m := by omega
    have hgo : m + 1 < n ↔ m < n - 1 := by omega
    simp [EndsAt, hstop, hgo]

theorem exists_endsAt_of_exploreFrom {fuel : Nat} (he : q.loopAt? i = some e)
    (h : q.exploreFrom fuel limit e = some r) :
    ∃ m e', q.loopAt? (i + m) = some e' ∧ q.EndsAt limit m e' r := by
  induction fuel generalizing i limit e with
  | zero => cases h
  | succ fuel ih =>
    rw [exploreFrom] at h
    by_cases hstop : limit = some 0
    · subst hstop
      obtain rfl : ⟨.stopped, e⟩ = r := Option.some.inj h
      exact ⟨0, e, he, .inl ⟨rfl, rfl⟩⟩
    · have hgo : (limit == some 0) = false := by simpa using hstop
      rw [hgo] at h
      cases hturn : q.progress false e with
      | done run =>
        obtain rfl : run = r := by simpa [hturn] using h
        refine ⟨0, e, he, .inr ⟨?_, hturn⟩⟩
        rintro n rfl
        have : n ≠ 0 := by simpa using hstop
        omega
      | more e₁ =>
        have hnext : q.loopAt? (i + 1) = some e₁ := loopAt?_succ_eq_some_iff.2 ⟨e, he, hturn⟩
        obtain ⟨m, e', hm, hend⟩ := ih hnext (by simpa [hturn] using h)
        refine ⟨m + 1, e', ?_, (endsAt_succ_iff hstop).2 hend⟩
        rw [← hm, Nat.add_right_comm, Nat.add_assoc]

theorem exploreFrom_of_endsAt (he : q.loopAt? i = some e) (he' : q.loopAt? (i + m) = some e')
    (h : q.EndsAt limit m e' r) : q.exploreFrom (m + 1) limit e = some r := by
  induction m generalizing i limit e with
  | zero =>
    obtain rfl : e = e' := Option.some.inj (he.symm.trans he')
    rw [exploreFrom]
    rcases h with ⟨rfl, rfl⟩ | ⟨hlimit, hdone⟩
    · rfl
    · have hgo : (limit == some 0) = false := by
        rw [beq_eq_false_iff_ne]
        rintro rfl
        exact Nat.lt_irrefl 0 (hlimit 0 rfl)
      rw [hgo, hdone]
  | succ m ih =>
    rw [← Nat.add_assoc, Nat.add_right_comm] at he'
    obtain ⟨e₁, he₁⟩ := exists_loopAt?_of_le he' (m := i + 1) (by omega)
    obtain ⟨e₀, he₀, hmore⟩ := loopAt?_succ_eq_some_iff.1 he₁
    obtain rfl : e = e₀ := Option.some.inj (he.symm.trans he₀)
    have hstop : limit ≠ some 0 := by
      rintro rfl
      simp [EndsAt] at h
    have hgo : (limit == some 0) = false := by simpa using hstop
    rw [exploreFrom, hgo, hmore]
    exact ih he₁ he' ((endsAt_succ_iff hstop).1 h)

/-- A run ends in some turn of the loop that nobody stops. -/
theorem ends_iff : q.Ends limit r ↔ ∃ m e, q.loopAt? m = some e ∧ q.EndsAt limit m e r := by
  constructor
  · rintro ⟨fuel, hrun⟩
    simpa using exists_endsAt_of_exploreFrom (i := 0) rfl hrun
  · rintro ⟨m, e, he, hend⟩
    exact ⟨m + 1, exploreFrom_of_endsAt (i := 0) rfl (by simpa using he) hend⟩

/-- A loop that does not come to some turn has ended by itself in an earlier one. -/
theorem exists_done_of_loopAt?_eq_none (hn : q.loopAt? n = none) :
    ∃ m < n, ∃ e r, q.loopAt? m = some e ∧ q.progress false e = .done r := by
  induction n with
  | zero => cases hn
  | succ n ih =>
    cases he : q.loopAt? n with
    | none =>
      obtain ⟨m, hm, hlast⟩ := ih he
      exact ⟨m, by omega, hlast⟩
    | some e =>
      cases hturn : q.progress false e with
      | done r => exact ⟨n, by omega, e, r, he, hturn⟩
      | more e' => simp [loopAt?_succ_eq_some_iff.2 ⟨e, he, hturn⟩] at hn

/-- A run that is stopped at some time ends, whether or not it would do so otherwise. -/
theorem exists_ends_some (q : Problem) (n : Nat) : ∃ r, q.Ends (some n) r := by
  cases hn : q.loopAt? n with
  | some e => exact ⟨_, ends_iff.2 ⟨n, e, hn, .inl ⟨rfl, rfl⟩⟩⟩
  | none =>
    obtain ⟨m, hm, e, r, he, hdone⟩ := exists_done_of_loopAt?_eq_none hn
    refine ⟨r, ends_iff.2 ⟨m, e, he, .inr ⟨?_, hdone⟩⟩⟩
    rintro n' hn'
    cases hn'
    exact hm

/-! ### What a run examines -/

theorem examined?_eq_none_of_done (he : q.loopAt? m = some e) (hdone : q.progress false e = .done r)
    (hi : m < i) : q.examined? i = none := by
  have hnext : q.loopAt? (m + 1) = none := by simp [loopAt?, he, hdone]
  cases hloop : q.loopAt? i with
  | none => simp [examined?, hloop]
  | some e' =>
    obtain ⟨e₁, he₁⟩ := exists_loopAt?_of_le hloop hi
    simp [hnext] at he₁

/-- A run that ends by itself examines all states that are examined if nobody stops it. -/
theorem getElem?_examined_of_done (he : q.loopAt? m = some e)
    (hdone : q.progress false e = .done r) (i : Nat) :
    r.exploration.examined.reverse[i]? = q.examined? i := by
  have hbefore := getElem?_examined_of_loopAt? he
  have hafter := examined?_eq_none_of_done he hdone (i := i)
  rcases progress_eq_done_iff.1 hdone with ⟨hstop, -⟩ | ⟨-, hq, rfl⟩ | ⟨-, s, rest, c, hq, -, rfl⟩
  · cases hstop
  · rw [hbefore]
    split
    · rfl
    · by_cases heq : i = m
      · simp [heq, examined?, he, hq]
      · rw [hafter (by omega)]
  · have hs : q.examined? m = some s := by simp [examined?, he, hq]
    have hall := getElem?_reverse_cons_examined (explored_of_loopAt? he) hbefore hs i
    refine hall.trans ?_
    split
    · rfl
    · rw [hafter (by omega)]

/-- A run examines the states that are examined if nobody stops it, as far as it may. -/
theorem Ends.getElem?_examined (h : q.Ends limit r) (i : Nat) :
    r.exploration.examined.reverse[i]? = if limit.all (i < ·) then q.examined? i else none := by
  obtain ⟨m, e, he, ⟨rfl, rfl⟩ | ⟨hlimit, hdone⟩⟩ := ends_iff.1 h
  · simpa using getElem?_examined_of_loopAt? he i
  · rw [getElem?_examined_of_done he hdone]
    split
    · rfl
    · next hstop =>
      -- The run would have been stopped before turn `i`, but it ended before that.
      obtain ⟨n, rfl, hn⟩ : ∃ n, limit = some n ∧ n ≤ i := by
        cases limit with
        | none => simp at hstop
        | some n => exact ⟨n, rfl, by simpa using hstop⟩
      have := hlimit n rfl
      exact examined?_eq_none_of_done he hdone (by omega)

/-! ### The verdict of a run that is stopped -/

/-- The run that nobody stops finds the counterexample among the first `n` states it examines. -/
def RefutedWithin (q : Problem) (n : Nat) (c : Counterexample) : Prop :=
  ∃ r, q.Ends none r ∧ r.verdict = .refuted c ∧ r.exploration.explored ≤ n

/-- The counterexample is the last state examined. -/
theorem explored_of_refuted (he : q.loopAt? m = some e) (hdone : q.progress false e = .done r)
    (hc : r.verdict = .refuted c) : r.exploration.explored = m + 1 := by
  rcases progress_eq_done_iff.1 hdone with ⟨hstop, -⟩ | ⟨-, -, rfl⟩ | ⟨-, s, rest, c, -, -, rfl⟩
  · cases hstop
  · cases hc
  · exact congrArg (· + 1) (explored_of_loopAt? he)

theorem refutedWithin_iff : q.RefutedWithin n c ↔
    ∃ m < n, ∃ e r, q.loopAt? m = some e ∧ q.progress false e = .done r ∧
      r.verdict = .refuted c := by
  constructor
  · rintro ⟨r, hr, hc, hn⟩
    obtain ⟨m, e, he, ⟨hlimit, -⟩ | ⟨-, hdone⟩⟩ := ends_iff.1 hr
    · cases hlimit
    · have := explored_of_refuted he hdone hc
      exact ⟨m, by omega, e, r, he, hdone, hc⟩
  · rintro ⟨m, hm, e, r, he, hdone, hc⟩
    have := explored_of_refuted he hdone hc
    exact ⟨r, ends_iff.2 ⟨m, e, he, .inr ⟨by simp, hdone⟩⟩, hc, by omega⟩

namespace Ends

theorem refuted_iff (h : q.Ends (some n) r) : r.verdict = .refuted c ↔ q.RefutedWithin n c := by
  rw [refutedWithin_iff]
  constructor
  · intro hc
    obtain ⟨m, e, he, ⟨-, rfl⟩ | ⟨hlimit, hdone⟩⟩ := ends_iff.1 h
    · cases hc
    · exact ⟨m, hlimit n rfl, e, r, he, hdone, hc⟩
  · rintro ⟨m, hm, e, r', he, hdone, hc⟩
    have hr' : q.Ends (some n) r' := ends_iff.2 ⟨m, e, he, .inr ⟨by simpa using hm, hdone⟩⟩
    rw [h.unique hr', hc]

/-- A run that is stopped has come to the turn in which it was told to stop. -/
theorem exists_loopAt?_of_stopped (h : q.Ends limit r) (hr : r.verdict = .stopped) :
    ∃ n, limit = some n ∧ q.loopAt? n = some r.exploration := by
  obtain ⟨m, e, he, ⟨rfl, rfl⟩ | ⟨-, hdone⟩⟩ := ends_iff.1 h
  · exact ⟨m, rfl, he⟩
  · rcases progress_eq_done_iff.1 hdone with ⟨hstop, -⟩ | ⟨-, -, rfl⟩ | ⟨-, _, _, _, -, -, rfl⟩
    · cases hstop
    · cases hr
    · cases hr

theorem stopped_iff_loopAt? (h : q.Ends (some n) r) :
    r.verdict = .stopped ↔ ∃ e, q.loopAt? n = some e := by
  constructor
  · intro hstopped
    obtain ⟨m, hm, he⟩ := h.exists_loopAt?_of_stopped hstopped
    cases hm
    exact ⟨_, he⟩
  · rintro ⟨e, he⟩
    have hr : q.Ends (some n) ⟨.stopped, e⟩ := ends_iff.2 ⟨n, e, he, .inl ⟨rfl, rfl⟩⟩
    rw [h.unique hr]

end Ends

/-- The loop comes to a turn if and only if a state is examined in every turn before and none of
them is a counterexample. -/
theorem exists_loopAt?_iff : (∃ e, q.loopAt? n = some e) ↔
    (∀ c, ¬ q.RefutedWithin n c) ∧ ∀ i < n, (q.examined? i).isSome = true := by
  constructor
  · rintro ⟨e, he⟩
    refine ⟨?_, ?_⟩
    · intro c hc
      obtain ⟨m, hm, e₀, r, he₀, hdone, -⟩ := refutedWithin_iff.1 hc
      obtain ⟨e₁, he₁⟩ := exists_loopAt?_of_le he (m := m + 1) hm
      simp [loopAt?, he₀, hdone] at he₁
    · intro i hi
      obtain ⟨e₀, he₀⟩ := exists_loopAt?_of_le he (m := i) (by omega)
      obtain ⟨e₁, he₁⟩ := exists_loopAt?_of_le he (m := i + 1) hi
      obtain ⟨s, hs, -⟩ := examined?_of_loopAt?_succ he₀ he₁
      rw [hs, Option.isSome_some]
  · rintro ⟨hclean, hall⟩
    by_contra hnone
    rw [← Option.ne_none_iff_exists', not_not] at hnone
    obtain ⟨m, hm, e, r, he, hdone⟩ := exists_done_of_loopAt?_eq_none hnone
    rcases progress_eq_done_iff.1 hdone with ⟨hstop, -⟩ | ⟨-, hq, -⟩ | ⟨-, s, rest, c, -, -, rfl⟩
    · cases hstop
    · have := hall m hm
      simp [examined?, he, hq] at this
    · exact hclean _ (refutedWithin_iff.2 ⟨m, hm, e, _, he, hdone, rfl⟩)

theorem Ends.stopped_iff (h : q.Ends (some n) r) : r.verdict = .stopped ↔
    (∀ c, ¬ q.RefutedWithin n c) ∧ ∀ i < n, (q.examined? i).isSome = true := by
  rw [h.stopped_iff_loopAt?, exists_loopAt?_iff]

theorem Ends.verified_iff_examined (h : q.Ends (some n) r) : r.verdict = .verified ↔
    (∀ c, ¬ q.RefutedWithin n c) ∧ ∃ i < n, q.examined? i = none := by
  constructor
  · intro hv
    have hclean : ∀ c, ¬ q.RefutedWithin n c := by
      intro c hc
      rw [h.refuted_iff.2 hc] at hv
      cases hv
    refine ⟨hclean, ?_⟩
    by_contra hall
    push Not at hall
    have hstopped := h.stopped_iff.2 ⟨hclean, fun i hi => Option.isSome_iff_ne_none.2 (hall i hi)⟩
    rw [hstopped] at hv
    cases hv
  · rintro ⟨hclean, i, hi, hnone⟩
    cases hv : r.verdict with
    | verified => rfl
    | refuted c => exact absurd (h.refuted_iff.1 hv) (hclean c)
    | stopped =>
      have := (h.stopped_iff.1 hv).2 i hi
      simp [hnone] at this

/-- The run is the one that nobody stops, cut off when `n` states have been examined. It finds the
same counterexample if that is among these states. If not, it is stopped if there are `n` of them,
and else it has verified the problem. -/
structure CutAt (q : Problem) (n : Nat) (r : Run) : Prop where
  examined : ∀ i, r.exploration.examined.reverse[i]? = if i < n then q.examined? i else none
  refuted : ∀ c, r.verdict = .refuted c ↔ q.RefutedWithin n c
  stopped : r.verdict = .stopped ↔
    (∀ c, ¬ q.RefutedWithin n c) ∧ ∀ i < n, (q.examined? i).isSome = true
  verified : r.verdict = .verified ↔
    (∀ c, ¬ q.RefutedWithin n c) ∧ ∃ i < n, q.examined? i = none

theorem Ends.cutAt (h : q.Ends (some n) r) : q.CutAt n r := by
  refine ⟨?_, fun c => h.refuted_iff, h.stopped_iff, h.verified_iff_examined⟩
  intro i
  simpa using h.getElem?_examined i

theorem Ends.not_violates_of_stopped (h : q.Ends limit r) (hr : r.verdict = .stopped) :
    ∀ s ∈ r.exploration.examined, ¬ q.Violates s := by
  obtain ⟨e, he, ⟨-, rfl⟩ | ⟨-, rfl⟩ | ⟨_, _, _, -, -, rfl⟩⟩ := h.cases
  · exact he.not_violates
  · cases hr
  · cases hr

end Problem

/-! ### Sessions -/

namespace Session

variable {c c' : Session} {raiseAfter : Option Nat} {r : Run}

/-- What a session can be asked for: to run, and to change its stop signal or the one held
outside. -/
inductive Request where
  /-- Run, with the signal raised after so many states. -/
  | run (fuel : Nat) (raiseAfter : Option Nat)
  /-- Raise the signal of the session. -/
  | raise
  /-- Raise or lower the signal held outside. -/
  | store (value : Bool)
  /-- Hold the signal of the session outside. -/
  | take
  /-- Give the session the signal held outside. -/
  | install
  /-- Give the session a signal of its own. -/
  | renew (value : Bool)

/-- The session after a request; `none` if a run does not end with its fuel. -/
def handle (c : Session) : Request → Option Session
  | .run fuel raiseAfter => (c.run fuel raiseAfter).map (·.2)
  | .raise => some { c with signal := c.signal.raise }
  | .store value => some { c with signal := c.signal.store value }
  | .take => some { c with signal := c.signal.take }
  | .install => some { c with signal := c.signal.install }
  | .renew value => some { c with signal := c.signal.renew value }

/-- The session after a history of requests. -/
def after? (c : Session) (history : List Request) : Option Session :=
  history.foldlM handle c

theorem problem_of_handle {request : Request} (h : c.handle request = some c') :
    c'.problem = c.problem := by
  cases request with
  | run fuel raiseAfter =>
    obtain ⟨⟨r, c''⟩, hrun, rfl⟩ := Option.map_eq_some_iff.1 h
    exact (explore_of_run hrun).2.1
  | _ =>
    cases h
    rfl

/-- A session keeps its problem. -/
theorem problem_of_after? {history : List Request} (h : c.after? history = some c') :
    c'.problem = c.problem := by
  induction history generalizing c with
  | nil =>
    cases h
    rfl
  | cons request history ih =>
    rw [after?, List.foldlM_cons] at h
    obtain ⟨c₁, hc₁, hrest⟩ := Option.bind_eq_some_iff.1 h
    rw [ih hrest, problem_of_handle hc₁]

/-- What a run and the session after it report: the verdict, the numbers of states met and examined,
the counterexample, and the number of states checked down to depth `k`. -/
def report (k : Nat) : Run × Session → Verdict × Nat × Nat × Option Counterexample × Nat
  | (r, c) => (r.verdict, c.visited, c.explored, c.counterexample?, c.checkedWithin k)

/-- What is reported after a run is what the run has found. -/
theorem report_of_run {fuel : Nat} (h : c.run fuel raiseAfter = some (r, c')) (k : Nat) :
    report k (r, c') =
      (r.verdict, r.exploration.visited, r.exploration.explored, r.verdict.counterexample?,
        r.exploration.examined.countP (·.depth ≤ k)) := by
  obtain ⟨-, -, -, hvisited, hfound⟩ := explore_of_run h
  rw [report, hvisited, hfound, explored_of_run h, checkedWithin_of_run h,
    (ends_of_run h).counted.checkedWithin_eq]

/-- What is reported after a run is decided by the problem and the state of the signal. -/
theorem report_run_eq (hproblem : c.problem = c'.problem) (hsignal : c.signal.own = c'.signal.own)
    (fuel : Nat) (raiseAfter : Option Nat) (k : Nat) :
    (c.run fuel raiseAfter).map (report k) = (c'.run fuel raiseAfter).map (report k) := by
  rw [run_eq, run_eq, hproblem, hsignal, Option.map_map, Option.map_map]
  rfl

/-- Under a lowered signal the run of a session ends by itself or when the signal is raised. -/
theorem exists_run_iff_ends (hlow : c.signal.own = false) :
    (∃ fuel c', c.run fuel raiseAfter = some (r, c')) ↔ c.problem.Ends raiseAfter r := by
  have hlimit : limit c.signal.own raiseAfter = raiseAfter := by simp [limit, hlow]
  constructor
  · rintro ⟨fuel, c', hrun⟩
    exact ⟨fuel, hlimit ▸ (explore_of_run hrun).1⟩
  · rintro ⟨fuel, hr⟩
    have hrun := run_eq c fuel raiseAfter
    rw [hlimit, hr, Option.map_some] at hrun
    exact ⟨fuel, _, hrun⟩

/-- A run is stopped by the signal, which stays raised. -/
theorem own_signal_of_stopped {fuel : Nat} (h : c.run fuel raiseAfter = some (r, c'))
    (hr : r.verdict = .stopped) : c'.signal.own = true := by
  rw [run_eq, Option.map_eq_some_iff] at h
  obtain ⟨r', hexplore, heq⟩ := h
  obtain ⟨rfl, rfl⟩ := Prod.mk.inj heq
  show (if raiseAfter.any _ then c.signal.raise else c.signal).own = true
  split
  · exact c.signal.own_raise
  · next hlate =>
    by_contra hlow
    have hends : c.problem.Ends (limit c.signal.own raiseAfter) r' := ⟨fuel, hexplore⟩
    obtain ⟨n, hn, hloop⟩ := hends.exists_loopAt?_of_stopped hr
    have hexplored := Problem.explored_of_loopAt? hloop
    have hraise : raiseAfter = some n := by simpa [limit, hlow] using hn
    simp [hraise, hexplored] at hlate

end Session

/-- **Stopping a run cuts it short and leaves no trace.** What is expected decides only where the
sequence of examined states ends. Whatever was asked of a session before, its run under a lowered
signal is the run that nobody stops, cut off when the signal is raised. Under a raised signal it
examines nothing. A run that is stopped has examined no violation and leaves only the raised signal:
what is reported after a run is what a new session would report under such a signal. -/
theorem Problem.cancellation_cuts (q : Problem) :
    (∀ o o', { q with expected := o }.Precedes { q with expected := o' } ∨
      { q with expected := o' }.Precedes { q with expected := o }) ∧
    (∀ r, q.Ends none r → ∀ i, r.exploration.examined.reverse[i]? = q.examined? i) ∧
    ∀ history c, (Session.new q).after? history = some c →
      (c.signal.own = false →
        (∀ r, (∃ fuel c', c.run fuel none = some (r, c')) ↔ q.Ends none r) ∧
        ∀ n, (∃ fuel r c', c.run fuel (some n) = some (r, c')) ∧
          ∀ fuel r c', c.run fuel (some n) = some (r, c') → q.CutAt n r) ∧
      (c.signal.own = true → ∀ fuel raiseAfter, ∃ r c',
        c.run (fuel + 1) raiseAfter = some (r, c') ∧
        r.verdict = .stopped ∧ r.exploration.examined = []) ∧
      ∀ fuel raiseAfter,
        (∀ r c', c.run fuel raiseAfter = some (r, c') →
          (∀ k, Session.report k (r, c') =
            (r.verdict, r.exploration.visited, r.exploration.explored, r.verdict.counterexample?,
              r.exploration.examined.countP (·.depth ≤ k))) ∧
          (r.verdict = .stopped → c'.signal.own = true ∧ c'.counterexample? = none ∧
            ∀ s ∈ r.exploration.examined, ¬ q.Violates s)) ∧
        ∀ signal : StopSignal, signal.own = c.signal.own → ∀ k,
          (c.run fuel raiseAfter).map (Session.report k) =
            ({ Session.new q with signal }.run fuel raiseAfter).map (Session.report k) := by
  refine ⟨q.precedes_or_precedes, ?_, ?_⟩
  · intro r hr i
    simpa using hr.getElem?_examined i
  · intro history c hc
    obtain rfl : c.problem = q := Session.problem_of_after? hc
    refine ⟨?_, ?_, ?_⟩
    · intro hlow
      refine ⟨fun r => Session.exists_run_iff_ends hlow, ?_⟩
      intro n
      refine ⟨?_, ?_⟩
      · obtain ⟨r, hr⟩ := c.problem.exists_ends_some n
        obtain ⟨fuel, c', hrun⟩ := (Session.exists_run_iff_ends hlow).2 hr
        exact ⟨fuel, r, c', hrun⟩
      · intro fuel r c' hrun
        exact ((Session.exists_run_iff_ends hlow).1 ⟨fuel, c', hrun⟩).cutAt
    · intro hraised fuel raiseAfter
      obtain ⟨c', hrun⟩ := Session.exists_run_of_raised hraised fuel raiseAfter
      exact ⟨_, c', hrun, rfl, rfl⟩
    · intro fuel raiseAfter
      refine ⟨?_, ?_⟩
      · intro r c' hrun
        obtain ⟨-, hproblem, -, -, hfound⟩ := Session.explore_of_run hrun
        refine ⟨Session.report_of_run hrun, ?_⟩
        intro hstopped
        refine ⟨Session.own_signal_of_stopped hrun hstopped, ?_, ?_⟩
        · rw [hfound, hstopped]
          rfl
        · rw [← hproblem]
          exact (Session.ends_of_run hrun).not_violates_of_stopped hstopped
      · intro signal hsignal k
        have hproblem : c.problem = { Session.new c.problem with signal }.problem := rfl
        exact Session.report_run_eq hproblem hsignal.symm fuel raiseAfter k

/-- The counterexample of the race is the tenth state examined, also after a run that was stopped at
the third. As long as the signal stays raised, nothing is examined. -/
theorem Problem.race_cancelled :
    (∃ c, (Session.new Demo.Scenario.race.posed).after? [.run 100 (some 3)] = some c ∧
      ∃ r c', c.run 1 none = some (r, c') ∧ r.verdict = .stopped ∧ r.exploration.examined = []) ∧
    ∃ c, (Session.new Demo.Scenario.race.posed).after? [.run 100 (some 3), .renew false] = some c ∧
      (∃ fuel r c' x, c.run fuel (some 10) = some (r, c') ∧ r.verdict = .refuted x) ∧
      ∃ fuel r c', c.run fuel (some 9) = some (r, c') ∧ r.verdict = .stopped ∧
        c'.signal.own = true ∧ c'.counterexample? = none := by
  have hraised : ((Session.new Demo.Scenario.race.posed).after? [.run 100 (some 3)]).map
      (·.signal.own) = some true := by
    decide +kernel
  have hlowered : ((Session.new Demo.Scenario.race.posed).after?
      [.run 100 (some 3), .renew false]).map (·.signal.own) = some false := by
    decide +kernel
  have hrun : (Demo.Scenario.race.posed.explore 100 none).map (fun r =>
      (r.verdict.counterexample?.isSome, r.exploration.explored)) = some (true, 10) := by
    decide +kernel
  have hall : ∀ i < 9, (Demo.Scenario.race.posed.examined? i).isSome = true := by decide +kernel
  obtain ⟨c₀, hc₀, hown⟩ := Option.map_eq_some_iff.1 hraised
  obtain ⟨c, hc, hlow⟩ := Option.map_eq_some_iff.1 hlowered
  obtain ⟨r, hr, hstate⟩ := Option.map_eq_some_iff.1 hrun
  obtain ⟨hsome, hexplored⟩ := Prod.mk.inj hstate
  have hends : Demo.Scenario.race.posed.Ends none r := ⟨100, hr⟩
  obtain ⟨-, -, hsession⟩ := cancellation_cuts Demo.Scenario.race.posed
  obtain ⟨-, hidle, -⟩ := hsession _ c₀ hc₀
  obtain ⟨hcut, -, hreport⟩ := hsession _ c hc
  refine ⟨⟨c₀, hc₀, hidle hown 0 none⟩, c, hc, ?_, ?_⟩
  · obtain ⟨⟨fuel, r', c', hrun'⟩, hcutAt⟩ := (hcut hlow).2 10
    cases hv : r.verdict with
    | refuted x =>
      have hwithin : Demo.Scenario.race.posed.RefutedWithin 10 x := ⟨r, hends, hv, hexplored.le⟩
      exact ⟨fuel, r', c', x, hrun', ((hcutAt _ _ _ hrun').refuted x).2 hwithin⟩
    | verified => simp [hv, Verdict.counterexample?] at hsome
    | stopped => simp [hv, Verdict.counterexample?] at hsome
  · obtain ⟨⟨fuel, r', c', hrun'⟩, hcutAt⟩ := (hcut hlow).2 9
    have hverdict : r'.verdict = .stopped := by
      refine (hcutAt _ _ _ hrun').stopped.2 ⟨?_, hall⟩
      rintro x ⟨r'', hr'', -, hle⟩
      rw [hr''.unique hends, hexplored] at hle
      omega
    obtain ⟨hsignal, hnone, -⟩ := ((hreport _ _).1 r' c' hrun').2 hverdict
    exact ⟨fuel, r', c', hrun', hverdict, hsignal, hnone⟩

end Flowchart
