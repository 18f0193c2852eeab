import Flowchart.Proofs.Canonical
import Flowchart.Proofs.Level
import Flowchart.Proofs.Verdict

/-!
# Levels swept by a queue

The states down to a depth can also be counted without levels: take them from a queue one after the
other, put the successors of a state into the queue unless they were met before, and go no deeper
than the states of depth `k`. Such a sweep ends for every program, even if there is no end to the
states, since it takes no state twice and there are finitely many down to each depth. What it has
counted by then is the number of states in the levels.

## Main definitions

* `Sweep`, `Sweep.Returns`: the queue with what was met and counted, and the loop that empties it.
* `Sweep.Sound`, `Sweep.Closed`: what holds of a queue and of the states taken from it.

## Main results

* `Sweep.Sound.take`, `Sweep.Closed.take`: one turn of the loop.
* `Sweep.Sound.returns`: the loop ends, from whatever point.
* `Problem.totalWithin_exact`: the number of states down to a depth.
-/

namespace Flowchart

/-- States waiting in a queue, the states met so far, and the number of those counted. -/
structure Sweep where
  queue : List State
  met : Std.ExtTreeMap State Unit
  total : Nat

namespace Sweep

/-- The sweep that has met the first state only. -/
def begin (s : State) : Sweep where
  queue := [s]
  met := (∅ : Std.ExtTreeMap State Unit).insert s ()
  total := 0

/-- Put a state into the queue unless it was met before. -/
def discover (e : Sweep) (s : State) : Sweep :=
  if s ∈ e.met then e else { e with queue := e.queue ++ [s], met := e.met.insert s () }

/-- Deal with a state taken from the queue. States deeper than `k` are left out, and those of depth
`k` are counted without looking for their successors. -/
def take (p : Program) (k : Nat) (s : State) (e : Sweep) : Sweep :=
  if k < s.depth then e
  else if s.depth = k then { e with total := e.total + 1 }
  else ((s.successors p).map Prod.snd).foldl discover { e with total := e.total + 1 }

/-- The loop that begins with a sweep comes to its end, with `n` states counted. -/
inductive Returns (p : Program) (k : Nat) : Sweep → Nat → Prop
  | done {e : Sweep} (empty : e.queue = []) : Returns p k e e.total
  | more {e : Sweep} {s : State} {rest : List State} {n : Nat} (front : e.queue = s :: rest)
      (after : Returns p k (take p k s { e with queue := rest }) n) : Returns p k e n

variable {q : Problem} {p : Program} {k m n : Nat} {e : Sweep} {s x : State}
  {taken rest states : List State}

theorem Returns.unique (hm : Returns p k e m) (hn : Returns p k e n) : m = n := by
  induction hm with
  | done empty =>
    cases hn with
    | done _ => rfl
    | more front _ => simp [empty] at front
  | more front _ ih =>
    cases hn with
    | done empty => simp [empty] at front
    | more front' after =>
      obtain ⟨rfl, rfl⟩ := List.cons.inj (front.symm.trans front')
      exact ih after

/-! ### What is met -/

theorem mem_met_discover : x ∈ (e.discover s).met ↔ x ∈ e.met ∨ x = s := by
  rw [discover]
  by_cases hs : s ∈ e.met
  · rw [if_pos hs]
    constructor
    · exact .inl
    · intro hx
      exact hx.elim id fun heq => heq ▸ hs
  · rw [if_neg hs, Std.ExtTreeMap.mem_insert, Std.compare_eq_iff_eq, or_comm, @eq_comm _ x]

theorem mem_met_foldl_discover :
    x ∈ (states.foldl discover e).met ↔ x ∈ e.met ∨ x ∈ states := by
  induction states generalizing e with
  | nil => simp
  | cons s states ih => rw [List.foldl_cons, ih, mem_met_discover, List.mem_cons, or_assoc]

/-! ### The invariant -/

/-- The states taken so far and those in the queue are the states met, each of them once. They can
be reached and are not too deep, and one state is counted for each state taken. -/
structure Sound (q : Problem) (k : Nat) (taken : List State) (e : Sweep) : Prop where
  nodup : (taken ++ e.queue).Nodup
  mem_met_iff : ∀ s, s ∈ e.met ↔ s ∈ taken ++ e.queue
  reachable : ∀ s ∈ e.met, q.Reachable s ∧ s.depth ≤ k
  total_eq : e.total = taken.length

/-- The first state was met, and so were all successors of the states taken, as far as they are not
too deep. -/
structure Closed (q : Problem) (k : Nat) (taken : List State) (e : Sweep) : Prop where
  initial : q.initial ∈ e.met
  successor : ∀ s ∈ taken, s.depth < k → ∀ t n, (t, n) ∈ s.successors q.program → n ∈ e.met

theorem sound_begin (q : Problem) (k : Nat) : Sound q k [] (begin q.initial) := by
  have hmet (s : State) : s ∈ (begin q.initial).met ↔ s ∈ [] ++ (begin q.initial).queue := by
    show s ∈ (∅ : Std.ExtTreeMap State Unit).insert q.initial () ↔ s ∈ [q.initial]
    simp [@eq_comm _ s]
  refine ⟨List.nodup_singleton _, hmet, ?_, rfl⟩
  intro s hs
  obtain rfl : s = q.initial := by simpa [begin] using (hmet s).1 hs
  exact ⟨q.reachable_initial, Nat.zero_le k⟩

theorem closed_begin (q : Problem) (k : Nat) : Closed q k [] (begin q.initial) :=
  ⟨Std.ExtTreeMap.mem_insert_self, by simp⟩

theorem Sound.discover (h : Sound q k taken e) (hs : q.Reachable s ∧ s.depth ≤ k) :
    Sound q k taken (e.discover s) := by
  by_cases hmet : s ∈ e.met
  · rwa [Sweep.discover, if_pos hmet]
  · have hnew : s ∉ taken ++ e.queue := fun hold => hmet ((h.mem_met_iff s).2 hold)
    have hqueue : (e.discover s).queue = e.queue ++ [s] := by rw [Sweep.discover, if_neg hmet]
    refine ⟨?_, ?_, ?_, ?_⟩
    · rw [hqueue, ← List.append_assoc]
      exact h.nodup.append (List.nodup_singleton s) (by simpa using hnew)
    · intro x
      rw [mem_met_discover, hqueue, ← List.append_assoc, List.mem_append (t := [s]),
        List.mem_singleton, h.mem_met_iff]
    · intro x hx
      obtain hold | rfl := mem_met_discover.1 hx
      · exact h.reachable x hold
      · exact hs
    · rw [Sweep.discover, if_neg hmet]
      exact h.total_eq

theorem Sound.foldl_discover (h : Sound q k taken e)
    (hstates : ∀ s ∈ states, q.Reachable s ∧ s.depth ≤ k) :
    Sound q k taken (states.foldl Sweep.discover e) := by
  induction states generalizing e with
  | nil => exact h
  | cons s states ih =>
    have hs := hstates s List.mem_cons_self
    exact ih (h.discover hs) fun x hx => hstates x (List.mem_cons_of_mem _ hx)

/-- The state at the front of the queue goes to the states taken, and is counted. -/
theorem Sound.count (h : Sound q k taken e) (hqueue : e.queue = s :: rest) :
    Sound q k (taken ++ [s]) { e with queue := rest, total := e.total + 1 } := by
  have hsplit : taken ++ [s] ++ rest = taken ++ e.queue := by simp [hqueue]
  refine ⟨?_, ?_, h.reachable, ?_⟩
  · rw [hsplit]
    exact h.nodup
  · intro x
    rw [hsplit]
    exact h.mem_met_iff x
  · simp [h.total_eq]

theorem Sound.front (h : Sound q k taken e) (hqueue : e.queue = s :: rest) :
    q.Reachable s ∧ s.depth ≤ k :=
  h.reachable s ((h.mem_met_iff s).2 (by simp [hqueue]))

/-- One turn of the loop. No state in the queue is too deep, so each is counted. -/
theorem Sound.take (h : Sound q k taken e) (hqueue : e.queue = s :: rest) :
    Sound q k (taken ++ [s]) (Sweep.take q.program k s { e with queue := rest }) := by
  obtain ⟨hreach, hdepth⟩ := h.front hqueue
  rw [Sweep.take, if_neg (by omega)]
  by_cases hk : s.depth = k
  · rw [if_pos hk]
    exact h.count hqueue
  · rw [if_neg hk]
    refine (h.count hqueue).foldl_discover ?_
    intro n hn
    obtain ⟨⟨t, n⟩, hturn, rfl⟩ := List.mem_map.1 hn
    obtain ⟨w, hw⟩ := Problem.reachable_iff_leads.1 hreach
    have hnext : n.depth = s.depth + 1 := State.depth_of_mem_successors hturn
    refine ⟨Problem.reachable_iff_leads.2 ⟨_, hw.successor hturn⟩, ?_⟩
    show n.depth ≤ k
    omega

theorem Closed.take (h : Closed q k taken e) (hs : s.depth ≤ k) :
    Closed q k (taken ++ [s]) (Sweep.take q.program k s { e with queue := rest }) := by
  rw [Sweep.take, if_neg (by omega)]
  by_cases hk : s.depth = k
  · rw [if_pos hk]
    refine ⟨h.initial, ?_⟩
    intro x hx hlt
    rcases List.mem_append.1 hx with hx | hx
    · exact h.successor x hx hlt
    · rw [List.mem_singleton.1 hx] at hlt
      omega
  · rw [if_neg hk]
    refine ⟨mem_met_foldl_discover.2 (.inl h.initial), ?_⟩
    intro x hx hlt t n hturn
    rw [mem_met_foldl_discover]
    rcases List.mem_append.1 hx with hx | hx
    · exact .inl (h.successor x hx hlt t n hturn)
    · rw [List.mem_singleton.1 hx] at hturn
      exact .inr (List.mem_map.2 ⟨(t, n), hturn, rfl⟩)

/-! ### The end of the loop -/

/-- The states taken are among those of the levels. -/
theorem Sound.length_le (h : Sound q k taken e) : taken.length ≤ q.totalWithin k := by
  rw [q.totalWithin_eq_length k]
  refine ((h.nodup.of_append_left).subperm ?_).length_le
  intro s hs
  exact Problem.mem_levels.2 (h.reachable s ((h.mem_met_iff s).2 (List.mem_append_left _ hs)))

/-- Once the queue is empty, no state is missing. -/
theorem Closed.mem_taken {w : List ThreadId} (h : Closed q k taken e) (hsound : Sound q k taken e)
    (hempty : e.queue = []) (hw : q.Leads w s) (hs : s.depth ≤ k) : s ∈ taken := by
  have hmet (x : State) : x ∈ e.met ↔ x ∈ taken := by
    rw [hsound.mem_met_iff, hempty, List.append_nil]
  induction hw with
  | nil => exact (hmet _).1 h.initial
  | @snoc w m t b _ hrun hb ih =>
    have hlt : m.depth < k := by
      rw [State.depth_fire] at hs
      omega
    have hturn : (t, m.fire t b) ∈ m.successors q.program :=
      State.mem_successors_iff.2 ⟨hrun, b, hb, rfl⟩
    exact (hmet _).1 (h.successor m (ih hlt.le) hlt t _ hturn)

theorem Sound.total_eq_totalWithin (h : Sound q k taken e) (hclosed : Closed q k taken e)
    (hempty : e.queue = []) : e.total = q.totalWithin k := by
  refine h.total_eq.trans (h.length_le.antisymm ?_)
  rw [q.totalWithin_eq_length k]
  refine ((q.nodup_levels k).subperm ?_).length_le
  intro s hs
  obtain ⟨hreach, hdepth⟩ := Problem.mem_levels.1 hs
  obtain ⟨w, hw⟩ := Problem.reachable_iff_leads.1 hreach
  exact hclosed.mem_taken h hempty hw hdepth

/-- The loop ends, since every turn takes a state of the levels that was not taken before. -/
theorem Sound.returns (h : Sound q k taken e) (hclosed : Closed q k taken e) :
    Returns q.program k e (q.totalWithin k) := by
  induction hleft : q.totalWithin k - taken.length using Nat.strong_induction_on
    generalizing taken e with
  | _ left ih =>
    cases hqueue : e.queue with
    | nil => exact h.total_eq_totalWithin hclosed hqueue ▸ .done hqueue
    | cons s rest =>
      have hsound := h.take hqueue
      have hle := hsound.length_le
      rw [List.length_append, List.length_singleton] at hle
      refine .more hqueue (ih _ ?_ hsound (hclosed.take (h.front hqueue).2) rfl)
      rw [List.length_append, List.length_singleton]
      omega

end Sweep

namespace Problem

/-- The length of a schedule is the depth of the state it leads to. -/
theorem exists_leads_iff {q : Problem} {k : Nat} {s : State} :
    (∃ w, w.length ≤ k ∧ q.Leads w s) ↔ q.Reachable s ∧ s.depth ≤ k := by
  rw [reachable_iff_leads]
  constructor
  · rintro ⟨w, hlen, hw⟩
    exact ⟨⟨w, hw⟩, hw.depth_eq_length ▸ hlen⟩
  · rintro ⟨⟨w, hw⟩, hdepth⟩
    exact ⟨w, hw.depth_eq_length ▸ hdepth, hw⟩

/-- **The total counts states, not schedules.** It is the number of different snapshots of the states
to which valid schedules of length at most `k` lead. The sweep of the states down to depth `k` ends
and counts as many, whether or not there is an end to the states. The expected output plays no
part. -/
theorem totalWithin_exact (q : Problem) (k : Nat) :
    (State.snapshot '' {s | ∃ w, w.length ≤ k ∧ q.Leads w s}).encard = q.totalWithin k ∧
    (∀ n, Sweep.Returns q.program k (.begin q.initial) n ↔ n = q.totalWithin k) ∧
    ∀ expected, { q with expected }.totalWithin k = q.totalWithin k := by
  refine ⟨?_, ?_, fun _ => rfl⟩
  · simp only [exists_leads_iff]
    rw [State.snapshot_injective.encard_image, ← (q.finite_reachable k).cast_ncard_eq,
      totalWithin_eq_ncard]
  · intro n
    have hreturns := (Sweep.sound_begin q k).returns (Sweep.closed_begin q k)
    constructor
    · intro hn
      exact hn.unique hreturns
    · rintro rfl
      exact hreturns

-- The thread goes round in a loop, and each turn leads to a new state.
example : Demo.Scenario.spin.posed.totalWithin 5 = 6 := by
  decide +kernel

end Problem

end Flowchart
