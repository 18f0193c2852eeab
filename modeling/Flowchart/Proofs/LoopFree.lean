import Flowchart.Proofs.Census
import Flowchart.Proofs.ControlFlow
import Flowchart.Proofs.Footprint
import Flowchart.Proofs.Level
import Mathlib.Algebra.Order.BigOperators.Group.List
import Mathlib.Order.CompletePartialOrder

/-!
# Programs without loops

Exploration looks for an end that it need not find. It does find one if no thread has a loop, that
is, if no block of a thread leads back to itself by way of blocks of the thread. A thread that runs
a block then leaves it for good, so the blocks that it can still get to become fewer with every
step, whatever the other threads do in between, and whether it ends, waits or gets to a number that
has no block.

## Main definitions

* `Thread.Edge`, `Thread.LoopFree`: the graph of a thread, and that it has no cycle.
* `Thread.onward`: the blocks that a thread can still get to.

## Main results

* `Thread.ncard_onward_lt`: a step leaves fewer blocks to get to.
* `Problem.count_add_onward_le`: so a thread takes no more turns than it has blocks.
* `Problem.loop_free_terminates`: loop-free programs always get a verdict.
-/

namespace Flowchart

/-- A thread that goes one of two ways, one of which leads to an INPUT and then to a number without
a block, beside a thread that waits for input. There is none. -/
def Demo.forked : Problem where
  program := (Demo.Outline.program
    { name := "forked"
      declared := ["x", "y"]
      threads := [
        (⟨1⟩, [⟨⟨0⟩, .start ⟨1⟩⟩, ⟨⟨1⟩, .branch ⟨"x", .less, 5⟩ ⟨3⟩ ⟨2⟩⟩, ⟨⟨2⟩, .input "x" ⟨9⟩⟩,
          ⟨⟨3⟩, .print "x" ⟨4⟩⟩, ⟨⟨4⟩, .finish⟩]),
        (⟨2⟩, [⟨⟨0⟩, .start ⟨1⟩⟩, ⟨⟨1⟩, .input "y" ⟨2⟩⟩, ⟨⟨2⟩, .finish⟩])] }).toOption.get
      (by decide +kernel)
  input := []
  expected := [0]

namespace Thread

variable {t : Thread} {i j : BlockId} {b : Block} {s : State}

/-- One block of the thread leads to another one. -/
def Edge (t : Thread) (i j : BlockId) : Prop :=
  ∃ b, t.block? i = some b ∧ j ∈ b.action.targets ∧ j ∈ t.nodes

/-- No block of the thread leads back to itself. -/
def LoopFree (t : Thread) : Prop :=
  ∀ i, ¬ Relation.TransGen t.Edge i i

/-- A numbering of the blocks that grows along the edges excludes loops. -/
theorem loopFree_of_rank (rank : BlockId → Nat) (h : ∀ i j, t.Edge i j → rank i < rank j) :
    t.LoopFree := by
  intro i hcycle
  have hgrows : ∀ j, Relation.TransGen t.Edge i j → rank i < rank j := by
    intro j hj
    induction hj with
    | single hedge => exact h _ _ hedge
    | tail _ hedge ih => exact ih.trans (h _ _ hedge)
  exact lt_irrefl _ (hgrows i hcycle)

/-- The blocks of the thread that control can get to from a counter, the current one among them. -/
def onward (t : Thread) (counter : Option BlockId) : Set BlockId :=
  {j | j ∈ t.nodes ∧ ∃ i, counter = some i ∧ Relation.ReflTransGen t.Edge i j}

theorem mem_nodes_of_block? (h : t.block? i = some b) : i ∈ t.nodes := by
  obtain ⟨hmem, rfl⟩ := block?_eq_some_iff.1 h
  exact mem_of_getElem?_eq_some (mem_blocks.1 hmem)

theorem coe_keys_toFinset (t : Thread) :
    (↑t.nodes.keys.toFinset : Set BlockId) = {j | j ∈ t.nodes} := by
  ext j
  simp

theorem finite_nodes (t : Thread) : {j | j ∈ t.nodes}.Finite := by
  rw [← coe_keys_toFinset]
  exact Finset.finite_toSet _

theorem ncard_nodes (t : Thread) : {j | j ∈ t.nodes}.ncard = t.size := by
  rw [← coe_keys_toFinset, Set.ncard_coe_finset,
    List.toFinset_card_of_nodup Std.ExtTreeMap.nodup_keys, Std.ExtTreeMap.length_keys, size]

theorem onward_subset (t : Thread) (counter : Option BlockId) :
    t.onward counter ⊆ {j | j ∈ t.nodes} :=
  fun _ hj => hj.1

theorem ncard_onward_le (t : Thread) (counter : Option BlockId) :
    (t.onward counter).ncard ≤ t.size := by
  rw [← ncard_nodes]
  exact Set.ncard_le_ncard (t.onward_subset counter) t.finite_nodes

/-- A number without a block leads nowhere. -/
theorem mem_nodes_of_reflTransGen (h : Relation.ReflTransGen t.Edge i j) (hj : j ∈ t.nodes) :
    i ∈ t.nodes := by
  rcases Relation.ReflTransGen.cases_head h with rfl | ⟨k, ⟨b, hb, -⟩, -⟩
  · exact hj
  · exact mem_nodes_of_block? hb

/-- A thread without loops that runs a block cannot get to it again. -/
theorem onward_ssubset (h : t.LoopFree) (hb : t.block? i = some b) {counter : Option BlockId}
    (hnext : ∀ j, counter = some j → j ∈ b.action.targets) :
    t.onward counter ⊂ t.onward (some i) := by
  have hi := mem_nodes_of_block? hb
  have hedge : ∀ j k, counter = some j → Relation.ReflTransGen t.Edge j k → k ∈ t.nodes →
      t.Edge i j := by
    intro j k hj hjk hk
    exact ⟨b, hb, hnext j hj, mem_nodes_of_reflTransGen hjk hk⟩
  refine Set.ssubset_iff_of_subset ?_ |>.2 ⟨i, ⟨hi, i, rfl, .refl⟩, ?_⟩
  · rintro k ⟨hk, j, hj, hjk⟩
    exact ⟨hk, i, rfl, .head (hedge j k hj hjk hk) hjk⟩
  · rintro ⟨-, j, hj, hji⟩
    exact h i (.head' (hedge j i hj hji hi) hji)

theorem ncard_onward_lt (h : t.LoopFree) (hb : t.block? i = some b) {counter : Option BlockId}
    (hnext : ∀ j, counter = some j → j ∈ b.action.targets) :
    (t.onward counter).ncard < (t.onward (some i)).ncard :=
  Set.ncard_lt_ncard (onward_ssubset h hb hnext) (t.finite_nodes.subset (t.onward_subset _))

end Thread

namespace State

variable {p : Program} {s : State} {t u : ThreadId} {b : Block} {j : BlockId}

/-- A step moves the counter of its own thread only. -/
theorem counter?_fire (s : State) (t u : ThreadId) (b : Block) :
    (s.fire t b).counter? u = if t = u then b.action.next? s b.id else s.counter? u := by
  rw [counter?, getElem?_counters_fire]
  split
  · rfl
  · rfl

/-- A thread that can run is at a block that exists. -/
theorem counter?_of_mem_ready (h : (t, b) ∈ s.ready p) : s.counter? t = some b.id := by
  obtain ⟨i, hi, hblock⟩ := Program.current_eq_ok_some_iff.1 (current_of_mem_ready h)
  obtain ⟨-, -, -, -, rfl⟩ := Program.block?_eq_some_iff.1 hblock
  rw [counter?, hi, Option.join_some]

/-- A thread that can run goes on to a target of its block, if it goes on at all. -/
theorem mem_targets_of_mem_ready (h : (t, b) ∈ s.ready p) (hj : b.action.next? s b.id = some j) :
    j ∈ b.action.targets := by
  obtain ⟨c, -, hready⟩ := mem_ready_iff.1 h
  obtain ⟨-, -, -, hwait⟩ := Program.ready?_eq_some_iff.1 hready
  have hgoes : b.action.isFinish = false := by
    rw [Bool.eq_false_iff]
    intro hfinish
    rw [Action.next?_eq_none_iff.2 hfinish] at hj
    cases hj
  have hfed : ¬ (b.action.isInput = true ∧ s.input = []) := by
    rintro ⟨hin, hempty⟩
    rcases hwait with hno | hne
    · simp [hin] at hno
    · exact hne hempty
  obtain ⟨k, hk, hnext⟩ := Action.exists_target_of_next? b.id hgoes hfed
  rw [hj, Option.some.injEq] at hnext
  exact hnext ▸ hk

end State

/-- No thread of the program has a loop. -/
def Program.LoopFree (p : Program) : Prop :=
  ∀ t ∈ p.threadList, t.LoopFree

/-- The number of blocks of all threads. -/
def Program.blockCount (p : Program) : Nat :=
  (p.threadList.map Thread.size).sum

namespace Problem

variable {q : Problem} {t : Thread} {w : List ThreadId} {s : State} {n k : Nat}

/-! ### Counts that do not grow any more -/

/-- Beyond the length that no schedule exceeds there is nothing to count. -/
theorem schedulesWithin_of_le (h : ∀ w s, q.Leads w s → w.length ≤ n) (hk : n ≤ k) :
    q.schedulesWithin k = q.schedulesWithin n := by
  rw [schedulesWithin_eq_ncard, schedulesWithin_eq_ncard]
  congr 1
  ext w
  constructor
  · rintro ⟨-, s, hw⟩
    exact ⟨h w s hw, s, hw⟩
  · rintro ⟨hlen, hvalid⟩
    exact ⟨hlen.trans hk, hvalid⟩

theorem totalWithin_of_le (h : ∀ w s, q.Leads w s → w.length ≤ n) (hk : n ≤ k) :
    q.totalWithin k = q.totalWithin n := by
  rw [totalWithin_eq_ncard, totalWithin_eq_ncard]
  congr 1
  ext s
  constructor
  · rintro ⟨hreach, -⟩
    obtain ⟨w, hw⟩ := reachable_iff_leads.1 hreach
    exact ⟨hreach, hw.depth_eq_length ▸ h w s hw⟩
  · rintro ⟨hreach, hdepth⟩
    exact ⟨hreach, hdepth.trans hk⟩

/-! ### Turns and blocks -/

/-- The turns that a thread has taken and the blocks that it can still get to are no more than the
blocks that it has. -/
theorem count_add_onward_le (h : q.program.LoopFree) (ht : t ∈ q.program.threadList)
    (hw : q.Leads w s) : w.count t.id + (t.onward (s.counter? t.id)).ncard ≤ t.size := by
  induction hw with
  | nil =>
    rw [List.count_nil, Nat.zero_add]
    exact t.ncard_onward_le _
  | @snoc w m u b _ hrun hb ih =>
    rw [List.count_append, List.count_singleton, State.counter?_fire]
    by_cases hu : u = t.id
    · subst hu
      have hready := State.ready_of_mem_runnable hrun hb
      have hcounter := State.counter?_of_mem_ready hready
      obtain ⟨i, -, hblock⟩ := (Program.current_eq_ok_some_iff_of_mem ht).1 hb
      obtain rfl : b.id = i := (Thread.block?_eq_some_iff.1 hblock).2
      have hfewer := Thread.ncard_onward_lt (h t ht) hblock
        (fun j hj => State.mem_targets_of_mem_ready hready hj)
      rw [hcounter] at ih
      rw [if_pos rfl, beq_self_eq_true, if_pos rfl]
      omega
    · rw [if_neg hu, beq_false_of_ne hu]
      simpa using ih

theorem count_le_size (h : q.program.LoopFree) (ht : t ∈ q.program.threadList)
    (hw : q.Leads w s) : w.count t.id ≤ t.size :=
  (Nat.le_add_right _ _).trans (count_add_onward_le h ht hw)

/-- A schedule is made of the turns of the threads of the program. -/
theorem length_eq_sum_count (hw : q.Leads w s) :
    w.length = (q.program.threadList.map fun t => w.count t.id).sum := by
  have hids : ∀ i ∈ (↑w : Multiset ThreadId), i ∈ q.program.threadIds.toFinset := by
    intro i hi
    exact List.mem_toFinset.2 (mem_threadIds_of_leads hw (Multiset.mem_coe.1 hi))
  have hnodup : q.program.threadIds.Nodup := Std.ExtTreeMap.nodup_keys
  calc w.length = ∑ i ∈ q.program.threadIds.toFinset, w.count i := by
        simpa using (Multiset.sum_count_eq_card hids).symm
    _ = (q.program.threadIds.map fun i => w.count i).sum := List.sum_toFinset _ hnodup
    _ = _ := by rw [← q.program.map_id_threadList, List.map_map]; rfl

theorem length_le_blockCount (h : q.program.LoopFree) (hw : q.Leads w s) :
    w.length ≤ q.program.blockCount := by
  rw [length_eq_sum_count hw]
  apply List.sum_le_sum
  intro t ht
  exact count_le_size h ht hw

/-- **Loop-free programs always get a verdict.** Let no thread of a program have a loop. Then a
thread takes at most as many turns along a valid schedule as it has blocks, and no state is deeper
than the number of blocks of all threads. An exploration that nobody stops ends, with the problem
verified or refuted. From that number on, there are no more schedules and no more states to
count. -/
theorem loop_free_terminates (q : Problem) (h : q.program.LoopFree) :
    (∀ w s, q.Leads w s → ∀ t ∈ q.program.threadList, w.count t.id ≤ t.size) ∧
    (∀ s, q.Reachable s → s.depth ≤ q.program.blockCount) ∧
    (∃ r, q.Ends none r ∧ (r.verdict = .verified ∨ ∃ c, r.verdict = .refuted c)) ∧
    ∀ k, q.program.blockCount ≤ k →
      q.schedulesWithin k = q.schedulesWithin q.program.blockCount ∧
      q.totalWithin k = q.totalWithin q.program.blockCount := by
  have hlength : ∀ w s, q.Leads w s → w.length ≤ q.program.blockCount :=
    fun w s => length_le_blockCount h
  refine ⟨?_, ?_, ?_, ?_⟩
  · intro w s hw t ht
    exact count_le_size h ht hw
  · intro s hs
    obtain ⟨w, hw⟩ := reachable_iff_leads.1 hs
    exact hw.depth_eq_length ▸ hlength w s hw
  · obtain ⟨r, hr⟩ := exists_ends_of_bounded ⟨_, hlength⟩
    refine ⟨r, hr, ?_⟩
    cases hv : r.verdict with
    | verified => exact .inl rfl
    | refuted c => exact .inr ⟨c, rfl⟩
    | stopped => exact absurd hv hr.verdict_ne_stopped
  · intro k hk
    exact ⟨schedulesWithin_of_le hlength hk, totalWithin_of_le hlength hk⟩

/-- The numbers of the blocks grow along the edges. -/
theorem forked_terminates :
    Demo.forked.program.LoopFree ∧
    (∃ r, Demo.forked.Ends none r ∧ (r.verdict = .verified ∨ ∃ c, r.verdict = .refuted c)) ∧
    ∀ s, Demo.forked.Reachable s → s.depth ≤ 8 := by
  have hgrows : ∀ t ∈ Demo.forked.program.threadList, ∀ b ∈ t.blocks, ∀ j ∈ b.action.targets,
      b.id.val.toNat < j.val.toNat := by
    decide +kernel
  have hfree : Demo.forked.program.LoopFree := by
    intro t ht
    refine Thread.loopFree_of_rank (fun i => i.val.toNat) ?_
    rintro i j ⟨b, hb, hj, -⟩
    obtain ⟨hmem, rfl⟩ := Thread.block?_eq_some_iff.1 hb
    exact hgrows t ht b hmem j hj
  have hcount : Demo.forked.program.blockCount = 8 := by decide +kernel
  obtain ⟨-, hdepth, hverdict, -⟩ := loop_free_terminates Demo.forked hfree
  exact ⟨hfree, hverdict, hcount ▸ hdepth⟩

end Problem

end Flowchart
