import Flowchart.Coverage.Report
import Flowchart.Proofs.Level
import Flowchart.Proofs.Map
import Flowchart.Proofs.Verdict
import Mathlib.Algebra.BigOperators.Group.Finset.Basic

/-!
# What coverage counts

The number of states checked down to a depth is the number of examined states of at most that depth,
and the total is the number of all such states. A run examines the states level by level. So it has
checked all states less deep than the last one it examined, however it ended, and it has checked
nothing that is deeper.

* `Exploration.Counted`: the tally counts the examined states by their depths.
* `Problem.Ends.depth_le_of_not_mem`: what was left out is at least as deep as what was examined.
* `Session.coverage_exact`: checked and total, level by level.
-/

namespace Flowchart

/-! ### The tally -/

/-- The counts of a tally up to a depth, added up depth by depth. -/
theorem sum_toList_filter_le (m : Std.ExtTreeMap Nat Nat) (k : Nat) :
    ((m.toList.filter (·.1 ≤ k)).map (·.2)).sum = ∑ d ∈ Finset.range (k + 1), m.getD d 0 := by
  set entries := m.toList.filter (·.1 ≤ k) with hentries
  have hmem (d n : Nat) : (d, n) ∈ entries ↔ m[d]? = some n ∧ d ≤ k := by
    simp [hentries, Std.ExtTreeMap.mem_toList_iff_getElem?_eq_some]
  have hkeys : (entries.map Prod.fst).Nodup := by
    exact (nodup_map_fst_toList m).sublist (List.filter_sublist.map _)
  have hvalues : entries.map (·.2) = (entries.map Prod.fst).map (m.getD · 0) := by
    rw [List.map_map]
    apply List.map_congr_left
    rintro ⟨d, n⟩ hdn
    simp [Std.ExtTreeMap.getD_eq_getD_getElem?, ((hmem d n).1 hdn).1]
  rw [hvalues, ← List.sum_toFinset _ hkeys]
  apply Finset.sum_subset
  · intro d hd
    obtain ⟨⟨d, n⟩, hdn, rfl⟩ := List.mem_map.1 (List.mem_toFinset.1 hd)
    have hle := ((hmem d n).1 hdn).2
    exact Finset.mem_range.2 (Nat.lt_succ_of_le hle)
  · intro d hd hnot
    have hle : d ≤ k := by
      rw [Finset.mem_range] at hd
      omega
    cases hn : m[d]? with
    | none => simp [Std.ExtTreeMap.getD_eq_getD_getElem?, hn]
    | some n =>
      refine absurd ?_ hnot
      exact List.mem_toFinset.2 (List.mem_map.2 ⟨(d, n), (hmem d n).2 ⟨hn, hle⟩, rfl⟩)

/-- States counted depth by depth up to `k` are the states of depth at most `k`. -/
theorem sum_countP_depth (states : List State) (k : Nat) :
    ∑ d ∈ Finset.range (k + 1), states.countP (·.depth = d) = states.countP (·.depth ≤ k) := by
  induction states with
  | nil => simp
  | cons s states ih =>
    simp only [List.countP_cons, Finset.sum_add_distrib, ih, decide_eq_true_eq,
      Finset.sum_ite_eq, Finset.mem_range, Nat.lt_succ_iff]

namespace Exploration

variable {q : Problem} {e : Exploration} {s x : State} {rest : List State}

/-- The tally counts the examined states by their depths. -/
def Counted (e : Exploration) : Prop :=
  ∀ d, e.tally.getD d 0 = e.examined.countP (·.depth = d)

theorem Counted.checkedWithin_eq (h : e.Counted) (k : Nat) :
    e.checkedWithin k = e.examined.countP (·.depth ≤ k) := by
  calc e.checkedWithin k
      = ∑ d ∈ Finset.range (k + 1), e.tally.getD d 0 := sum_toList_filter_le e.tally k
    _ = ∑ d ∈ Finset.range (k + 1), e.examined.countP (·.depth = d) :=
        Finset.sum_congr rfl fun d _ => h d
    _ = e.examined.countP (·.depth ≤ k) := sum_countP_depth e.examined k

/-- The counts of the tally add up to the number of examined states. -/
theorem Counted.total_tally (h : e.Counted) : e.tally.total = e.explored := by
  -- Some depth is beyond all that the tally lists and all that was examined.
  obtain ⟨k, hk⟩ : ∃ k, ∀ d ∈ e.tally.toList.map (·.1) ++ e.examined.map State.depth, d ≤ k :=
    ⟨_, fun d hd => List.le_max_of_le' 0 hd le_rfl⟩
  have hlisted : ∀ entry ∈ e.tally.toList, decide (entry.1 ≤ k) = true := by
    intro entry hentry
    exact decide_eq_true (hk _ (List.mem_append_left _ (List.mem_map_of_mem hentry)))
  have hexamined : ∀ s ∈ e.examined, decide (s.depth ≤ k) = true := by
    intro s hs
    exact decide_eq_true (hk _ (List.mem_append_right _ (List.mem_map_of_mem hs)))
  calc e.tally.total
      = e.checkedWithin k := by
        rw [checkedWithin, Tally.within, List.filter_eq_self.2 hlisted, Tally.total]
    _ = e.examined.countP (·.depth ≤ k) := h.checkedWithin_eq k
    _ = e.explored := List.countP_eq_length.2 hexamined

theorem counted_begin (s : State) : (begin s).Counted := by
  intro d
  simp [begin]

theorem Counted.examine (h : e.Counted) (s : State) (rest : List State) :
    (e.examine s rest).Counted := by
  intro d
  have hd := h d
  simp only [Exploration.examine, Tally.count, Std.ExtTreeMap.getD_insert, Std.compare_eq_iff_eq,
    List.countP_cons, decide_eq_true_eq]
  split
  · next heq => rw [heq, hd]
  · exact hd

@[simp]
theorem tally_discover (s : State) (e : Exploration) (turn : ThreadId × State) :
    (discover s e turn).tally = e.tally := by
  rw [discover]
  split
  · rfl
  · rfl

@[simp]
theorem tally_foldl_discover (s : State) (e : Exploration) (turns : List (ThreadId × State)) :
    (turns.foldl (discover s) e).tally = e.tally := by
  induction turns generalizing e with
  | nil => rfl
  | cons turn turns ih => rw [List.foldl_cons, ih, tally_discover]

theorem Counted.expand (h : e.Counted) (p : Program) (s : State) : (e.expand p s).Counted := by
  intro d
  rw [Exploration.expand, tally_foldl_discover, examined_foldl_discover]
  exact h d

/-! ### Examined states -/

theorem Linked.nodup_examined (h : e.Linked q) : e.examined.Nodup :=
  List.nodup_reverse.1 (List.nodup_append'.1 h.nodup_met).1

theorem Linked.reachable (h : e.Linked q) (hs : s ∈ e.examined) : q.Reachable s :=
  Problem.reachable_iff_leads.2 ⟨_, h.leads (h.mem_of_examined hs)⟩

theorem Linked.visited_eq_length_met (h : e.Linked q) : e.visited = e.met.length := by
  rw [visited, ← Std.ExtTreeMap.length_keys]
  apply List.Perm.length_eq
  rw [List.perm_ext_iff_of_nodup Std.ExtTreeMap.nodup_keys h.nodup_met]
  intro s
  rw [Std.ExtTreeMap.mem_keys, h.mem_met_iff]

/-- The state examined last is the deepest of those examined. -/
theorem Linked.depth_le_latest (h : e.Linked q) (hs : e.examined = s :: rest)
    (hx : x ∈ e.examined) : x.depth ≤ s.depth := by
  have hordered := h.ordered
  rw [met, List.pairwise_append, List.pairwise_reverse, hs, List.pairwise_cons] at hordered
  have hsmem : s ∈ e.examined := by simp [hs]
  rw [hs, List.mem_cons] at hx
  rcases hx with rfl | hx
  · exact le_rfl
  · rw [← h.length_route (h.mem_of_examined hsmem),
      ← h.length_route (h.mem_of_examined (by simp [hs, hx]))]
    exact (hordered.1.1 x hx).length_le

end Exploration

namespace Problem

variable {q : Problem} {e : Exploration} {r : Run} {limit : Option Nat} {s x : State} {k : Nat}
  {rest : List State}

theorem Attains.counted (h : q.Attains e) : e.Counted := by
  induction h with
  | begin => exact Exploration.counted_begin q.initial
  | more _ turn ih =>
    obtain ⟨-, s, rest, -, -, rfl⟩ := progress_eq_more_iff.1 turn
    exact (ih.examine s rest).expand q.program s

namespace Ends

theorem counted (h : q.Ends limit r) : r.exploration.Counted := by
  obtain ⟨e, he, ⟨-, rfl⟩ | ⟨-, rfl⟩ | ⟨s, rest, m, -, -, rfl⟩⟩ := h.cases
  · exact he.counted
  · exact he.counted
  · exact he.counted.examine s rest

theorem linked (h : q.Ends limit r) : r.exploration.Linked q := by
  obtain ⟨e, he, ⟨-, rfl⟩ | ⟨-, rfl⟩ | ⟨s, rest, m, hq, -, rfl⟩⟩ := h.cases
  · exact he.frontier.toLinked
  · exact he.frontier.toLinked
  · exact he.frontier.toLinked.after_examine hq

/-- What a run leaves out is at least as deep as what it examines. -/
theorem depth_le_of_not_mem (h : q.Ends limit r) (hx : q.Reachable x)
    (hnot : x ∉ r.exploration.examined) (hs : s ∈ r.exploration.examined) :
    s.depth ≤ x.depth := by
  obtain ⟨w, hw⟩ := reachable_iff_leads.1 hx
  rw [hw.depth_eq_length]
  obtain ⟨e, he, ⟨-, rfl⟩ | ⟨-, rfl⟩ | ⟨f, rest, m, hq, -, rfl⟩⟩ := h.cases
  · exact he.frontier.depth_le_of_not_mem hw hnot hs
  · exact he.frontier.depth_le_of_not_mem hw hnot hs
  · -- The state with the mismatch is examined but not expanded.
    have hnot' : x ∉ e.examined := fun hmem => hnot (List.mem_cons_of_mem _ hmem)
    rcases List.mem_cons.1 hs with rfl | hs
    · rw [← he.frontier.length_route (he.frontier.mem_of_queue hq)]
      exact (he.frontier.first_noLater hq hw hnot').length_le
    · exact he.frontier.depth_le_of_not_mem hw hnot' hs

/-- All is checked down to a depth if every state there is examined. -/
theorem checkedWithin_eq_totalWithin (h : q.Ends limit r)
    (hall : ∀ x, q.Reachable x → x.depth ≤ k → x ∈ r.exploration.examined) :
    r.exploration.checkedWithin k = q.totalWithin k := by
  rw [h.counted.checkedWithin_eq, totalWithin_eq_length, List.countP_eq_length_filter]
  apply List.Perm.length_eq
  rw [List.perm_ext_iff_of_nodup (h.linked.nodup_examined.filter _) (q.nodup_levels k)]
  intro x
  rw [List.mem_filter, mem_levels, decide_eq_true_eq]
  constructor
  · rintro ⟨hx, hdepth⟩
    exact ⟨h.linked.reachable hx, hdepth⟩
  · rintro ⟨hx, hdepth⟩
    exact ⟨hall x hx hdepth, hdepth⟩

theorem checkedWithin_le_totalWithin (h : q.Ends limit r) (k : Nat) :
    r.exploration.checkedWithin k ≤ q.totalWithin k := by
  rw [h.counted.checkedWithin_eq, totalWithin_eq_length, List.countP_eq_length_filter]
  refine (List.subperm_of_subset (h.linked.nodup_examined.filter _) ?_).length_le
  intro x hx
  rw [List.mem_filter, decide_eq_true_eq] at hx
  exact mem_levels.2 ⟨h.linked.reachable hx.1, hx.2⟩

theorem checkedWithin_of_lt_latest (h : q.Ends limit r) (hs : r.exploration.examined = s :: rest)
    (hk : k < s.depth) : r.exploration.checkedWithin k = q.totalWithin k := by
  refine h.checkedWithin_eq_totalWithin ?_
  intro x hx hdepth
  by_contra hnot
  have := h.depth_le_of_not_mem hx hnot (s := s) (by simp [hs])
  omega

theorem checkedWithin_of_latest_le (h : q.Ends limit r) (hs : r.exploration.examined = s :: rest)
    (hk : s.depth ≤ k) : r.exploration.checkedWithin k = r.exploration.explored := by
  rw [h.counted.checkedWithin_eq, Exploration.explored, List.countP_eq_length]
  intro x hx
  have := h.linked.depth_le_latest hs hx
  rw [decide_eq_true_eq]
  omega

theorem visited_eq_explored_of_verified (h : q.Ends limit r) (hv : r.verdict = .verified) :
    r.exploration.visited = r.exploration.explored := by
  obtain ⟨-, hqueue⟩ := h.attains_of_verified hv
  rw [h.linked.visited_eq_length_met, Exploration.met, hqueue, List.append_nil,
    List.length_reverse, Exploration.explored]

/-- A run that verifies its problem has examined as many states as there are. -/
theorem exists_explored_eq_of_verified (h : q.Ends limit r) (hv : r.verdict = .verified) :
    ∃ n, ∀ k, n ≤ k → r.exploration.explored = q.totalWithin k := by
  have hinitial : q.initial ∈ r.exploration.examined := h.mem_examined_of_verified hv .nil
  obtain ⟨s, rest, hs⟩ := List.exists_cons_of_ne_nil (List.ne_nil_of_mem hinitial)
  refine ⟨s.depth, ?_⟩
  intro k hk
  rw [← h.checkedWithin_of_latest_le hs hk]
  refine h.checkedWithin_eq_totalWithin ?_
  intro x hx _
  obtain ⟨w, hw⟩ := reachable_iff_leads.1 hx
  exact h.mem_examined_of_verified hv hw

end Ends

end Problem

namespace Session

variable {c c' : Session} {fuel : Nat} {raiseAfter : Option Nat} {r : Run}

theorem ends_of_run (h : c.run fuel raiseAfter = some (r, c')) :
    c'.problem.Ends (limit c.signal.own raiseAfter) r := by
  obtain ⟨hr, hproblem, -⟩ := explore_of_run h
  exact hproblem ▸ ⟨fuel, hr⟩

/-- A session has counted what its run examined, and nothing of earlier runs. -/
theorem explored_of_run (h : c.run fuel raiseAfter = some (r, c')) :
    c'.explored = r.exploration.explored := by
  obtain ⟨-, -, htally, -⟩ := explore_of_run h
  rw [explored, htally, (ends_of_run h).counted.total_tally]

theorem checkedWithin_of_run (h : c.run fuel raiseAfter = some (r, c')) (k : Nat) :
    c'.checkedWithin k = r.exploration.checkedWithin k := by
  obtain ⟨-, -, htally, -⟩ := explore_of_run h
  rw [checkedWithin, htally, Exploration.checkedWithin]

/-- Under a raised signal a session does not look at the queue. -/
theorem exists_run_of_raised (hraised : c.signal.own = true) (fuel : Nat)
    (raiseAfter : Option Nat) :
    ∃ c', c.run (fuel + 1) raiseAfter = some (⟨.stopped, .begin c.problem.initial⟩, c') := by
  have hlimit : limit c.signal.own raiseAfter = some 0 := by simp [limit, hraised]
  rw [run_eq, hlimit, Problem.explore_some_zero]
  exact ⟨_, rfl⟩

/-- **Coverage is exact level by level.** However a run ends, it has checked all states that are
less deep than the last one it examined, and from that depth on the states checked are all it
examined, which are no more than there are. A run that verifies its problem has checked all states
of every depth, and one that examined nothing has checked none, like a session that has not run. The
total is never zero. -/
theorem coverage_exact (c : Session) (k : Nat) :
    (∀ fuel raiseAfter r c', c.run fuel raiseAfter = some (r, c') →
      (∀ s, r.exploration.examined.head? = some s →
        (k < s.depth → c'.checkedWithin k = c'.problem.totalWithin k) ∧
        (s.depth ≤ k → c'.checkedWithin k = c'.explored ∧
          c'.explored ≤ c'.problem.totalWithin k)) ∧
      (r.verdict = .verified → c'.checkedWithin k = c'.problem.totalWithin k) ∧
      (r.exploration.examined = [] → c'.checkedWithin k = 0)) ∧
    (∀ signal : StopSignal, { new c.problem with signal }.checkedWithin k = 0) ∧
    (c.signal.own = true → ∀ fuel raiseAfter, ∃ r c', c.run (fuel + 1) raiseAfter = some (r, c') ∧
      r.exploration.examined = [] ∧ c'.checkedWithin k = 0) ∧
    1 ≤ c.problem.totalWithin k ∧
    (c.coverage k).percent =
      (c.checkedWithin k).toFloat / (c.problem.totalWithin k).toFloat * 100.0 := by
  have hnone {r : Run} {c' : Session} {fuel : Nat} {raiseAfter : Option Nat}
      (hrun : c.run fuel raiseAfter = some (r, c')) (hexamined : r.exploration.examined = []) :
      c'.checkedWithin k = 0 := by
    rw [checkedWithin_of_run hrun, (ends_of_run hrun).counted.checkedWithin_eq, hexamined]
    rfl
  refine ⟨?_, ?_, ?_, c.problem.one_le_totalWithin k, ?_⟩
  · intro fuel raiseAfter r c' hrun
    have hends := ends_of_run hrun
    rw [explored_of_run hrun]
    refine ⟨?_, ?_, hnone hrun⟩
    · intro s hs
      obtain ⟨rest, hrest⟩ := List.head?_eq_some_iff.1 hs
      rw [checkedWithin_of_run hrun]
      refine ⟨hends.checkedWithin_of_lt_latest hrest, ?_⟩
      intro hk
      have hall := hends.checkedWithin_of_latest_le hrest hk
      exact ⟨hall, hall ▸ hends.checkedWithin_le_totalWithin k⟩
    · intro hv
      rw [checkedWithin_of_run hrun]
      refine hends.checkedWithin_eq_totalWithin ?_
      intro x hx _
      obtain ⟨w, hw⟩ := Problem.reachable_iff_leads.1 hx
      exact hends.mem_examined_of_verified hv hw
  · intro signal
    exact (Exploration.counted_begin c.problem.initial).checkedWithin_eq k
  · intro hraised fuel raiseAfter
    obtain ⟨c', hrun⟩ := exists_run_of_raised hraised fuel raiseAfter
    exact ⟨_, c', hrun, rfl, hnone hrun rfl⟩
  · have hne : c.problem.totalWithin k ≠ 0 :=
      Nat.one_le_iff_ne_zero.1 (c.problem.one_le_totalWithin k)
    simp [coverage, percentage, hne]

/-- The race under a stop signal that is raised when four states have been examined. -/
theorem race_coverage :
    ∃ r c', (new Demo.Scenario.race.posed).run 100 (some 4) = some (r, c') ∧
      r.verdict = .stopped ∧ c'.checkedWithin 0 = c'.problem.totalWithin 0 ∧
      c'.checkedWithin 1 = 4 ∧ 4 ≤ c'.problem.totalWithin 1 := by
  have hrun : ((new Demo.Scenario.race.posed).run 100 (some 4)).map (fun ran =>
      (ran.1.verdict, ran.1.exploration.examined.head?.map (·.depth), ran.2.explored)) =
      some (.stopped, some 1, 4) := by
    decide +kernel
  obtain ⟨⟨r, c'⟩, hc', hstate⟩ := Option.map_eq_some_iff.1 hrun
  simp only [Prod.mk.injEq, Option.map_eq_some_iff] at hstate
  obtain ⟨hverdict, ⟨s, hs, hdepth⟩, hexplored⟩ := hstate
  obtain ⟨hbefore, -, -⟩ := (coverage_exact (new Demo.Scenario.race.posed) 0).1 _ _ r c' hc'
  obtain ⟨hafter, -, -⟩ := (coverage_exact (new Demo.Scenario.race.posed) 1).1 _ _ r c' hc'
  obtain ⟨hall, hle⟩ := (hafter s hs).2 (by omega)
  rw [hexplored] at hall hle
  exact ⟨r, c', hc', hverdict, (hbefore s hs).1 (by omega), hall, hle⟩

end Session

end Flowchart
