import Flowchart.Coverage.Level
import Flowchart.Proofs.Schedule
import Mathlib.Data.Set.Card

/-!
# Levels and the states that can be reached

The levels of a problem down to some depth list every state of at most that depth to which a valid
schedule leads, each of them once. So the number of states in them is the number of such states,
however the schedules meet and whether or not they come to an end before.

* `Problem.IsLevel`: a list that holds the states of one depth.
* `Problem.mem_levels`, `Problem.nodup_levels`: the states that the levels hold.
-/

namespace Flowchart

/-! ### Repetitions -/

section Distinct

variable {s : State} {seen : Std.ExtTreeMap State Unit} {states : List State}

theorem mem_distinctFrom : s ∈ distinctFrom seen states ↔ s ∈ states ∧ s ∉ seen := by
  induction states generalizing seen with
  | nil => simp [distinctFrom]
  | cons x rest ih =>
    rw [distinctFrom]
    split
    · next hx =>
      rw [ih, List.mem_cons]
      by_cases hs : s = x
      · simp [hs, hx]
      · simp [hs]
    · next hx =>
      rw [List.mem_cons, ih, List.mem_cons, Std.ExtTreeMap.mem_insert, Std.compare_eq_iff_eq]
      by_cases hs : s = x
      · simp [hs, hx]
      · simp [hs, Ne.symm hs]

theorem nodup_distinctFrom : (distinctFrom seen states).Nodup := by
  induction states generalizing seen with
  | nil => exact List.nodup_nil
  | cons x rest ih =>
    rw [distinctFrom]
    split
    · exact ih
    · refine List.nodup_cons.2 ⟨?_, ih⟩
      intro hx
      exact (mem_distinctFrom.1 hx).2 Std.ExtTreeMap.mem_insert_self

end Distinct

theorem nodup_nextLevel (p : Program) (level : List State) : (nextLevel p level).Nodup :=
  nodup_distinctFrom

theorem mem_nextLevel {p : Program} {level : List State} {s : State} :
    s ∈ nextLevel p level ↔ ∃ m ∈ level, ∃ t, (t, s) ∈ m.successors p := by
  simp [nextLevel, distinct, mem_distinctFrom]

namespace Problem

variable {q : Problem} {s : State} {n k : Nat} {level : List State}

/-- The list holds the states of depth `n` to which valid schedules lead, each of them once. -/
structure IsLevel (q : Problem) (n : Nat) (level : List State) : Prop where
  nodup : level.Nodup
  mem_iff : ∀ s, s ∈ level ↔ q.Reachable s ∧ s.depth = n

theorem isLevel_initial (q : Problem) : q.IsLevel 0 [q.initial] := by
  refine ⟨List.nodup_singleton _, ?_⟩
  intro s
  rw [List.mem_singleton]
  constructor
  · rintro rfl
    exact ⟨q.reachable_initial, rfl⟩
  · rintro ⟨hs, hdepth⟩
    obtain ⟨w, hw⟩ := reachable_iff_leads.1 hs
    rw [hw.depth_eq_length, List.length_eq_zero_iff] at hdepth
    subst hdepth
    simpa [Leads, Program.leads_iff_replay?, eq_comm] using hw

theorem IsLevel.next (h : q.IsLevel n level) : q.IsLevel (n + 1) (nextLevel q.program level) := by
  refine ⟨nodup_nextLevel _ _, ?_⟩
  intro s
  rw [mem_nextLevel]
  constructor
  · rintro ⟨m, hm, t, ht⟩
    obtain ⟨hreach, rfl⟩ := (h.mem_iff m).1 hm
    obtain ⟨w, hw⟩ := reachable_iff_leads.1 hreach
    exact ⟨reachable_iff_leads.2 ⟨_, Program.Leads.successor hw ht⟩,
      State.depth_of_mem_successors ht⟩
  · rintro ⟨hreach, hdepth⟩
    obtain ⟨w, hw⟩ := reachable_iff_leads.1 hreach
    cases hw with
    | nil => cases hdepth
    | @snoc w m t b hm hrun hb =>
      have hdepth' : m.depth = n := by simpa using hdepth
      refine ⟨m, (h.mem_iff m).2 ⟨reachable_iff_leads.2 ⟨w, hm⟩, hdepth'⟩, t, ?_⟩
      exact State.mem_successors_iff.2 ⟨hrun, b, hb, rfl⟩

/-- If no state is one step away from a level, there is no deeper state. -/
theorem IsLevel.depth_le_of_next_eq_nil (h : q.IsLevel n level)
    (hnext : nextLevel q.program level = []) (hs : q.Reachable s) : s.depth ≤ n := by
  obtain ⟨w, hw⟩ := reachable_iff_leads.1 hs
  induction hw with
  | nil => exact Nat.zero_le n
  | @snoc w m t b hm hrun hb ih =>
    have hreach : q.Reachable m := reachable_iff_leads.2 ⟨w, hm⟩
    have hle := ih hreach
    have hne : m.depth ≠ n := by
      intro heq
      have hmem : m.fire t b ∈ nextLevel q.program level :=
        mem_nextLevel.2 ⟨m, (h.mem_iff m).2 ⟨hreach, heq⟩, t,
          State.mem_successors_iff.2 ⟨hrun, b, hb, rfl⟩⟩
      simp [hnext] at hmem
    rw [State.depth_fire]
    omega

theorem IsLevel.levelsFrom_spec (h : q.IsLevel n level) (k : Nat) :
    (levelsFrom q.program k level).flatten.Nodup ∧
    ∀ s, s ∈ (levelsFrom q.program k level).flatten ↔
      q.Reachable s ∧ n ≤ s.depth ∧ s.depth ≤ n + k := by
  induction k generalizing n level with
  | zero =>
    simp only [levelsFrom, List.flatten_singleton, Nat.add_zero]
    refine ⟨h.nodup, ?_⟩
    intro s
    rw [h.mem_iff, and_congr_right_iff]
    intro _
    omega
  | succ k ih =>
    rw [levelsFrom]
    split
    · next hnext =>
      rw [List.flatten_singleton]
      refine ⟨h.nodup, ?_⟩
      intro s
      rw [h.mem_iff, and_congr_right_iff]
      intro hs
      have := h.depth_le_of_next_eq_nil hnext hs
      omega
    · obtain ⟨hnodup, hmem⟩ := ih h.next
      rw [List.flatten_cons]
      refine ⟨?_, ?_⟩
      · refine List.nodup_append'.2 ⟨h.nodup, hnodup, ?_⟩
        intro s hs hs'
        have := (h.mem_iff s).1 hs
        have := (hmem s).1 hs'
        omega
      · intro s
        rw [List.mem_append, h.mem_iff, hmem, ← and_or_left, and_congr_right_iff]
        intro _
        omega

theorem nodup_levels (q : Problem) (k : Nat) : (q.levels k).flatten.Nodup :=
  (q.isLevel_initial.levelsFrom_spec k).1

theorem mem_levels : s ∈ (q.levels k).flatten ↔ q.Reachable s ∧ s.depth ≤ k := by
  rw [levels, (q.isLevel_initial.levelsFrom_spec k).2]
  simp

theorem totalWithin_eq_length (q : Problem) (k : Nat) :
    q.totalWithin k = (q.levels k).flatten.length := by
  rw [List.length_flatten]
  rfl

theorem finite_reachable (q : Problem) (k : Nat) : {s | q.Reachable s ∧ s.depth ≤ k}.Finite := by
  refine (List.finite_toSet (q.levels k).flatten).subset ?_
  intro s hs
  exact mem_levels.2 hs

theorem totalWithin_eq_ncard (q : Problem) (k : Nat) :
    q.totalWithin k = {s | q.Reachable s ∧ s.depth ≤ k}.ncard := by
  have hset : {s | q.Reachable s ∧ s.depth ≤ k} = ↑(q.levels k).flatten.toFinset := by
    ext s
    rw [List.coe_toFinset]
    exact mem_levels.symm
  rw [hset, Set.ncard_coe_finset, List.toFinset_card_of_nodup (q.nodup_levels k),
    totalWithin_eq_length]

theorem one_le_totalWithin (q : Problem) (k : Nat) : 1 ≤ q.totalWithin k := by
  rw [totalWithin_eq_length]
  exact List.length_pos_of_mem (mem_levels.2 ⟨q.reachable_initial, Nat.zero_le k⟩)

end Problem

end Flowchart
