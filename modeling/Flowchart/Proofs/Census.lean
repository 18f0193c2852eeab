import Flowchart.Coverage.Census
import Flowchart.Proofs.Map
import Flowchart.Proofs.Schedule
import Mathlib.Algebra.BigOperators.Ring.Finset
import Mathlib.Data.Set.Card

/-!
# Schedules counted by where they lead

A census merges the schedules of one length that lead to the same state, and keeps their number.
What can follow a schedule depends only on the state it leads to. So a census in which every state
is weighed by the number of its continuations counts the longer schedules, and one step carries that
weight over to the next census.

## Main definitions

* `Program.schedules`: the valid schedules of one length, one after the other.
* `Census.weigh`: the sum of a census with a weight for each state.

* `Census.Counts`: the count of schedules, with the entries of each census in any order.

## Main results

* `Census.weigh_pass`: what one step does to weights.
* `Problem.schedulesWithin_eq_ncard`: schedules counted by censuses are the valid schedules.
* `Problem.schedules_counted_in_any_order`: so they are in whatever order a census is read.
-/

namespace Flowchart

/-- The valid schedules of length `n` from a state, in ascending order. -/
def Program.schedules (p : Program) : Nat → State → List (List ThreadId)
  | 0, _ => [[]]
  | n + 1, s => (s.successors p).flatMap fun turn => (p.schedules n turn.2).map (turn.1 :: ·)

/-- Every thread of the schedule can run when its turn comes. -/
def Problem.Valid (q : Problem) (w : List ThreadId) : Prop :=
  ∃ s, q.Leads w s

namespace Program

variable {p : Program} {s : State} {n : Nat} {w : List ThreadId}

theorem mem_schedules_iff : w ∈ p.schedules n s ↔ w.length = n ∧ ∃ m, p.Leads s w m := by
  induction n generalizing s w with
  | zero =>
    rw [schedules, List.mem_singleton, List.length_eq_zero_iff]
    constructor
    · rintro rfl
      exact ⟨rfl, s, .nil⟩
    · exact And.left
  | succ n ih =>
    simp only [schedules, List.mem_flatMap, List.mem_map, ih]
    constructor
    · rintro ⟨⟨t, m⟩, ht, v, ⟨rfl, m', hv⟩, rfl⟩
      exact ⟨rfl, m', leads_cons_iff.2 ⟨m, ht, hv⟩⟩
    · rintro ⟨hlen, m', hw⟩
      cases w with
      | nil => cases hlen
      | cons t v =>
        obtain ⟨m, ht, hv⟩ := leads_cons_iff.1 hw
        exact ⟨(t, m), ht, v, ⟨Nat.succ.inj hlen, m', hv⟩, rfl⟩

theorem nodup_schedules (p : Program) (n : Nat) (s : State) : (p.schedules n s).Nodup := by
  induction n generalizing s with
  | zero => exact List.nodup_singleton _
  | succ n ih =>
    rw [schedules, List.nodup_flatMap]
    refine ⟨fun turn _ => (ih turn.2).map (List.cons_injective), ?_⟩
    -- The schedules that begin with different turns have different first threads.
    refine (State.pairwise_successors p s).imp ?_
    intro a b hlt w ha hb
    obtain ⟨v, -, rfl⟩ := List.mem_map.1 ha
    obtain ⟨v', -, hv'⟩ := List.mem_map.1 hb
    have hthread : b.1 = a.1 := (List.cons.inj hv').1
    exact Std.Irrefl.irrefl a.1 (hthread ▸ hlt)

theorem length_schedules_succ (p : Program) (n : Nat) (s : State) :
    (p.schedules (n + 1) s).length =
      ((s.successors p).map fun turn => (p.schedules n turn.2).length).sum := by
  simp [schedules, List.length_flatMap]

end Program

namespace Census

variable {p : Program} {c : Census}

/-- The numbers of a census, each multiplied by the weight of its state, added up. -/
def weigh (c : Census) (f : State → Nat) : Nat :=
  (c.toList.map fun entry => entry.2 * f entry.1).sum

theorem total_eq_weigh (c : Census) : c.total = c.weigh fun _ => 1 := by
  have hvalues : c.values = c.toList.map Prod.snd := by
    have hfold : c.values = c.foldr (fun _ n ns => n :: ns) [] := rfl
    rw [hfold, Std.ExtTreeMap.foldr_eq_foldr_toList]
    exact List.map_eq_foldr.symm
  simp only [total, weigh, hvalues, Nat.mul_one]
  rfl

/-- The sum may run over any set that has all states of the census. -/
theorem weigh_eq_sum (f : State → Nat) {states : Finset State} (h : ∀ s ∈ c, s ∈ states) :
    c.weigh f = ∑ s ∈ states, c.getD s 0 * f s := by
  have hkeys : (c.toList.map Prod.fst).Nodup := nodup_map_fst_toList c
  have hterms : c.toList.map (fun entry => entry.2 * f entry.1) =
      (c.toList.map Prod.fst).map fun s => c.getD s 0 * f s := by
    rw [List.map_map]
    apply List.map_congr_left
    intro entry hentry
    have hn := Std.ExtTreeMap.mem_toList_iff_getElem?_eq_some.1 hentry
    simp [Std.ExtTreeMap.getD_eq_getD_getElem?, hn]
  rw [weigh, hterms, ← List.sum_toFinset _ hkeys, Std.ExtTreeMap.map_fst_toList_eq_keys]
  apply Finset.sum_subset
  · intro s hs
    exact h s (Std.ExtTreeMap.mem_keys.1 (List.mem_toFinset.1 hs))
  · intro s _ hs
    have hnot : s ∉ c := fun hmem => hs (List.mem_toFinset.2 (Std.ExtTreeMap.mem_keys.2 hmem))
    simp [Std.ExtTreeMap.getD_eq_fallback hnot]

theorem weigh_empty (f : State → Nat) : (∅ : Census).weigh f = 0 := by
  have hnil : (∅ : Census).toList = [] := Std.ExtTreeMap.toList_eq_nil_iff.2 rfl
  rw [weigh, hnil]
  rfl

theorem weigh_add (c : Census) (s : State) (n : Nat) (f : State → Nat) :
    (c.add s n).weigh f = c.weigh f + n * f s := by
  have hnew : ∀ x ∈ c.add s n, x ∈ insert s c.keys.toFinset := by
    intro x hx
    rw [add, Std.ExtTreeMap.mem_insert, Std.compare_eq_iff_eq] at hx
    simpa [@eq_comm _ x] using hx
  have hold : ∀ x ∈ c, x ∈ insert s c.keys.toFinset := by
    intro x hx
    simp [hx]
  rw [weigh_eq_sum f hnew, weigh_eq_sum f hold]
  have hterm (x : State) : (c.add s n).getD x 0 * f x =
      c.getD x 0 * f x + if s = x then n * f x else 0 := by
    by_cases hx : s = x
    · simp [add, hx, Nat.add_mul]
    · simp [add, hx, Std.ExtTreeMap.getD_insert]
  simp [hterm, Finset.sum_add_distrib]

theorem weigh_single (s : State) (f : State → Nat) : (single s).weigh f = f s := by
  simp [single, weigh_add, weigh_empty]

theorem weigh_foldl_add (turns : List (ThreadId × State)) (c : Census) (n : Nat)
    (f : State → Nat) :
    (turns.foldl (fun census turn => census.add turn.2 n) c).weigh f =
      c.weigh f + n * (turns.map fun turn => f turn.2).sum := by
  induction turns generalizing c with
  | nil => simp
  | cons turn turns ih =>
    rw [List.foldl_cons, ih, weigh_add, List.map_cons, List.sum_cons, Nat.mul_add, Nat.add_assoc]

theorem weigh_foldl_successors (p : Program) (entries : List (State × Nat)) (c : Census)
    (f : State → Nat) :
    (entries.foldl (fun census entry =>
        (entry.1.successors p).foldl (fun census turn => census.add turn.2 entry.2) census)
      c).weigh f =
      c.weigh f + (entries.map fun entry =>
        entry.2 * ((entry.1.successors p).map fun turn => f turn.2).sum).sum := by
  induction entries generalizing c with
  | nil => simp
  | cons entry entries ih =>
    rw [List.foldl_cons, ih, weigh_foldl_add, List.map_cons, List.sum_cons, Nat.add_assoc]

/-- The census of the schedules with one more turn, made by going through the entries of a census in
the order of a list. -/
def pass (p : Program) (entries : List (State × Nat)) : Census :=
  entries.foldl
    (fun census (s, n) => (s.successors p).foldl (fun census turn => census.add turn.2 n) census) ∅

/-- A state passes its number on to each of its successors, so it weighs in one census what its
successors weigh in the next. The order of the entries plays no part in it. -/
theorem weigh_pass (p : Program) {entries : List (State × Nat)} (h : entries.Perm c.toList)
    (f : State → Nat) :
    (pass p entries).weigh f = c.weigh fun s => ((s.successors p).map fun turn => f turn.2).sum := by
  have hfold := weigh_foldl_successors p entries ∅ f
  rw [weigh_empty, Nat.zero_add, (h.map _).sum_eq] at hfold
  exact hfold

theorem sum_map_snd_eq_total {entries : List (State × Nat)} (h : entries.Perm c.toList) :
    (entries.map Prod.snd).sum = c.total := by
  rw [(h.map Prod.snd).sum_eq, total_eq_weigh]
  simp [weigh]

/-- The count of the schedules in a census and in the `k` censuses after it comes to `n`, when the
entries of every census are gone through in some order, once to add their numbers up and once to
make the next census of them. Counting stops at an empty census. -/
inductive Counts (p : Program) : Nat → Census → Nat → Prop
  | last {c : Census} {entries : List (State × Nat)} (order : entries.Perm c.toList) :
      Counts p 0 c (entries.map Prod.snd).sum
  | stop {k : Nat} {c : Census} {entries turns : List (State × Nat)}
      (order : entries.Perm c.toList) (order' : turns.Perm c.toList)
      (empty : (pass p turns).isEmpty = true) : Counts p (k + 1) c (entries.map Prod.snd).sum
  | more {k n : Nat} {c : Census} {entries turns : List (State × Nat)}
      (order : entries.Perm c.toList) (order' : turns.Perm c.toList)
      (nonempty : (pass p turns).isEmpty = false) (rest : Counts p k (pass p turns) n) :
      Counts p (k + 1) c ((entries.map Prod.snd).sum + n)

theorem counts_schedulesFrom (p : Program) (k : Nat) (c : Census) :
    Counts p k c (schedulesFrom p k c) := by
  induction k generalizing c with
  | zero =>
    rw [schedulesFrom, ← sum_map_snd_eq_total (.refl _)]
    exact .last (.refl _)
  | succ k ih =>
    rw [schedulesFrom, ← sum_map_snd_eq_total (.refl _)]
    by_cases hempty : (c.next p).isEmpty = true
    · rw [if_pos hempty]
      exact .stop (.refl _) (.refl _) hempty
    · rw [if_neg hempty]
      exact .more (.refl _) (.refl _) (Bool.eq_false_iff.2 hempty) (ih (c.next p))

/-- The schedules that follow a census, one length after the other, are those that follow the next
one. -/
theorem sum_weigh_succ (p : Program) {turns : List (State × Nat)} (h : turns.Perm c.toList)
    (k : Nat) :
    ∑ m ∈ Finset.range (k + 1 + 1), c.weigh (fun s => (p.schedules m s).length) =
      c.total + ∑ m ∈ Finset.range (k + 1), (pass p turns).weigh fun s =>
        (p.schedules m s).length := by
  have hnow : (c.weigh fun s => (p.schedules 0 s).length) = c.total := c.total_eq_weigh.symm
  rw [Finset.sum_range_succ', hnow, Nat.add_comm]
  simp only [weigh_pass p h, Program.length_schedules_succ]

/-- The schedules in a census and in those after it, counted by the states of the first one. -/
theorem Counts.eq_sum {k n : Nat} (h : Counts p k c n) :
    n = ∑ m ∈ Finset.range (k + 1), c.weigh fun s => (p.schedules m s).length := by
  induction h with
  | last order =>
    rw [Finset.sum_range_one, sum_map_snd_eq_total order]
    exact total_eq_weigh _
  | stop order order' hempty =>
    -- Nothing can follow, so all later terms are zero.
    rw [Std.ExtTreeMap.isEmpty_iff] at hempty
    simp [sum_weigh_succ p order', hempty, weigh_empty, sum_map_snd_eq_total order]
  | more order order' _ _ ih =>
    rw [sum_weigh_succ p order', ← ih, sum_map_snd_eq_total order]

theorem counts_iff {k n : Nat} : Counts p k c n ↔ n = schedulesFrom p k c := by
  constructor
  · intro h
    exact h.eq_sum.trans (counts_schedulesFrom p k c).eq_sum.symm
  · intro h
    exact h ▸ counts_schedulesFrom p k c

end Census

namespace Problem

theorem finite_valid (q : Problem) (k : Nat) : {w | w.length ≤ k ∧ q.Valid w}.Finite :=
  (Schedule.finite_length_le k).subset fun _ hw => hw.1

/-- Schedules are counted length by length. -/
theorem schedulesWithin_eq_sum (q : Problem) (k : Nat) :
    q.schedulesWithin k =
      ∑ n ∈ Finset.range (k + 1), (q.program.schedules n q.initial).length := by
  rw [schedulesWithin, (Census.counts_schedulesFrom q.program k _).eq_sum]
  simp only [Census.weigh_single]

/-- The schedules counted up to a length are the valid ones, each once. -/
theorem schedulesWithin_eq_ncard (q : Problem) (k : Nat) :
    q.schedulesWithin k = {w | w.length ≤ k ∧ q.Valid w}.ncard := by
  have hset : {w | w.length ≤ k ∧ q.Valid w} =
      ↑((Finset.range (k + 1)).biUnion fun n => (q.program.schedules n q.initial).toFinset) := by
    ext w
    simp only [Set.mem_ofPred_eq, Finset.coe_biUnion, Set.mem_iUnion, List.coe_toFinset,
      Program.mem_schedules_iff, Finset.coe_range, Set.mem_Iio, Nat.lt_succ_iff]
    constructor
    · rintro ⟨hlen, hvalid⟩
      exact ⟨w.length, hlen, rfl, hvalid⟩
    · rintro ⟨n, hn, rfl, hvalid⟩
      exact ⟨hn, hvalid⟩
  have hdisjoint : (Finset.range (k + 1) : Set Nat).PairwiseDisjoint
      fun n => (q.program.schedules n q.initial).toFinset := by
    intro m _ n _ hmn
    rw [Function.onFun, Finset.disjoint_left]
    intro w hm hn
    rw [List.mem_toFinset, Program.mem_schedules_iff] at hm hn
    exact hmn (hm.1.symm.trans hn.1)
  rw [hset, Set.ncard_coe_finset, Finset.card_biUnion hdisjoint, schedulesWithin_eq_sum]
  apply Finset.sum_congr rfl
  intro n _
  rw [List.toFinset_card_of_nodup (q.program.nodup_schedules n q.initial)]

/-- **Schedules are counted one by one.** There are as many valid schedules of length at most `k` as
are counted by censuses, and the count comes to this number in whatever order the entries of the
censuses are gone through. -/
theorem schedules_counted_in_any_order (q : Problem) (k : Nat) :
    {w | w.length ≤ k ∧ q.Valid w}.encard = q.schedulesWithin k ∧
    ∀ n, Census.Counts q.program k (.single q.initial) n ↔ n = q.schedulesWithin k := by
  refine ⟨?_, fun n => Census.counts_iff⟩
  rw [← (q.finite_valid k).cast_ncard_eq, schedulesWithin_eq_ncard]

end Problem

end Flowchart
