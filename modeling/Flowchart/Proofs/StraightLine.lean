import Flowchart.Proofs.LoopFree
import Mathlib.Data.Nat.Factorial.BigOperators

/-!
# Straight-line threads

A thread without branches and without INPUT goes from its entry straight to its END block. Nothing
that the other threads do can hold it up or turn it aside, so all that matters to a schedule is how
many turns each thread has left. The schedules that run all threads to their ends are then the words
in which every thread occurs as often as it has blocks, and their number is a multinomial
coefficient, although states are merged or not as variables and output happen to be.

## Main definitions

* `Thread.Straight`: a straight way from a block to an END block, and its length.
* `State.Remaining`: the number of turns that each thread has left.

## Main results

* `State.Remaining.mem_runnable_iff`, `State.Remaining.successor`: what can run, and what a turn
  leaves.
* `State.Remaining.length_schedules_mul`: the number of schedules that run to the end.
* `Problem.straight_threads_multinomial`: the count for a problem.
-/

namespace Flowchart

/-- Two threads that store a constant in one variable and print it, the second one with its blocks
in descending order, and a third thread that prints the variable and has a block out of reach. -/
def Demo.crowd : Problem where
  program := (Demo.Outline.program
    { name := "crowd"
      declared := ["x"]
      threads := [
        (⟨1⟩, Demo.printer "x" 1),
        (⟨2⟩, [⟨⟨9⟩, .start ⟨6⟩⟩, ⟨⟨6⟩, .assign "x" (.literal 2) ⟨4⟩⟩, ⟨⟨4⟩, .print "x" ⟨0⟩⟩,
          ⟨⟨0⟩, .finish⟩]),
        (⟨3⟩, [⟨⟨0⟩, .start ⟨1⟩⟩, ⟨⟨1⟩, .print "x" ⟨2⟩⟩, ⟨⟨2⟩, .finish⟩,
          ⟨⟨3⟩, .input "x" ⟨3⟩⟩])] }).toOption.get (by decide +kernel)
  input := []
  expected := []

/-- The number of turns that a thread of the crowd takes. -/
def Demo.crowdTurns (t : ThreadId) : Nat :=
  if t = ⟨3⟩ then 3 else 4

/-- A block with one target that need not wait leads to its target. -/
theorem Action.next?_of_target {a : Action} {s : State} {j : BlockId} (here : BlockId)
    (hplain : a.isInput = false) (htarget : a.targets = [j]) : a.next? s here = some j := by
  cases a with
  | input var next => cases hplain
  | branch condition onTrue onFalse => simp [targets] at htarget
  | _ => simp_all [targets, next?]

namespace Thread

variable {t : Thread} {i j : BlockId} {b : Block} {n : Nat}

/-- From block `i` control goes straight to an END block, through `n` blocks in all, the first and
the last one included. -/
inductive Straight (t : Thread) : BlockId → Nat → Prop
  | last {i : BlockId} {b : Block} (block : t.block? i = some b) (finish : b.action = .finish) :
      Straight t i 1
  | next {i j : BlockId} {b : Block} {n : Nat} (block : t.block? i = some b)
      (plain : b.action.isInput = false) (target : b.action.targets = [j])
      (rest : Straight t j n) : Straight t i (n + 1)

/-- The length of the straight way from a block to an END block, if there is one of length at most
`fuel`. -/
def straightLength? (t : Thread) : Nat → BlockId → Option Nat
  | 0, _ => none
  | fuel + 1, i =>
    match t.block? i with
    | none => none
    | some b =>
      match b.action.targets with
      | [] => some 1
      | [j] => if b.action.isInput then none else (t.straightLength? fuel j).map (· + 1)
      | _ => none

theorem straight_of_straightLength? {fuel : Nat} (h : t.straightLength? fuel i = some n) :
    t.Straight i n := by
  fun_induction straightLength? t fuel i generalizing n with
  | case1 => cases h
  | case2 => cases h
  | case3 fuel i b hb htargets =>
    cases h
    refine .last hb ?_
    cases ha : b.action with
    | finish => rfl
    | _ => simp [ha, Action.targets] at htargets
  | case4 => cases h
  | case5 fuel i b hb j htargets hinput ih =>
    obtain ⟨m, hm, rfl⟩ := Option.map_eq_some_iff.1 h
    exact .next hb (by simpa using hinput) htargets (ih hm)
  | case6 => cases h

namespace Straight

theorem pos (h : t.Straight i n) : 0 < n := by
  cases h with
  | last _ _ => exact Nat.one_pos
  | next _ _ _ _ => exact Nat.succ_pos _

theorem exists_block (h : t.Straight i n) :
    ∃ b, t.block? i = some b ∧ b.action.isInput = false := by
  cases h with
  | last block finish => exact ⟨_, block, by rw [finish]; rfl⟩
  | next block plain _ _ => exact ⟨_, block, plain⟩

/-- What is left of a straight way after its first block. -/
theorem next?_cases (h : t.Straight i n) (hb : t.block? i = some b) (s : State) (here : BlockId) :
    (b.action.next? s here = none ∧ n - 1 = 0) ∨
      ∃ j, b.action.next? s here = some j ∧ t.Straight j (n - 1) := by
  cases h with
  | last block finish =>
    rw [hb, Option.some.injEq] at block
    rw [block, finish]
    exact .inl ⟨rfl, rfl⟩
  | next block plain target rest =>
    rw [hb, Option.some.injEq] at block
    rw [block]
    exact .inr ⟨_, Action.next?_of_target here plain target, rest⟩

end Straight

end Thread

/-- Every thread of the program has ended, with no turn left, or is on a straight way to its end
that takes as many turns as it has left. -/
def State.Remaining (p : Program) (s : State) (left : ThreadId → Nat) : Prop :=
  ∀ t ∈ p.threadList, (s.counters[t.id]? = some none ∧ left t.id = 0) ∨
    ∃ i, s.counters[t.id]? = some (some i) ∧ t.Straight i (left t.id)

namespace State.Remaining

variable {p : Program} {s n : State} {left : ThreadId → Nat} {i : ThreadId} {t : Thread} {b : Block}
  {w : List ThreadId} {m : Nat}

/-- A thread can run as long as it has turns left. -/
theorem mem_runnable_iff (h : s.Remaining p left) (ht : t ∈ p.threadList) :
    t.id ∈ s.runnable p ↔ 0 < left t.id := by
  rw [mem_runnable_iff_current]
  simp only [Program.current_eq_ok_some_iff_of_mem ht]
  rcases h t ht with ⟨hended, hleft⟩ | ⟨i, hi, hstraight⟩
  · simp [hended, hleft]
  · obtain ⟨b, hb, hplain⟩ := hstraight.exists_block
    exact iff_of_true ⟨b, ⟨i, hi, hb⟩, .inl hplain⟩ hstraight.pos

/-- A turn takes a thread one block further on its way. -/
theorem fire (h : s.Remaining p left) (hready : (i, b) ∈ s.ready p) :
    (s.fire i b).Remaining p (Function.update left i (left i - 1)) := by
  intro t ht
  rw [getElem?_counters_fire]
  by_cases hi : i = t.id
  · subst hi
    obtain ⟨j, hj, hblock⟩ :=
      (Program.current_eq_ok_some_iff_of_mem ht).1 (current_of_mem_ready hready)
    rw [if_pos rfl, Function.update_self]
    rcases h t ht with ⟨hended, -⟩ | ⟨k, hk, hstraight⟩
    · simp [hj] at hended
    · obtain rfl : j = k := by simpa [hj] using hk
      simpa using hstraight.next?_cases hblock s b.id
  · rw [if_neg hi, Function.update_of_ne (Ne.symm hi)]
    exact h t ht

theorem successor (h : s.Remaining p left) (hturn : (i, n) ∈ s.successors p) :
    0 < left i ∧ n.Remaining p (Function.update left i (left i - 1)) := by
  obtain ⟨b, hready, rfl⟩ := exists_ready_of_mem_successors hturn
  refine ⟨?_, h.fire hready⟩
  obtain ⟨t, ht, rfl, -⟩ := exists_thread_of_mem_ready hready
  exact (h.mem_runnable_iff ht).1 (State.mem_runnable_iff.2 ⟨b, hready⟩)

/-! ### The turns of all threads -/

/-- One turn of one thread is one turn of all. -/
theorem sum_update {ids : Finset ThreadId} (hi : i ∈ ids) (hpos : 0 < left i) :
    ∑ j ∈ ids, Function.update left i (left i - 1) j + 1 = ∑ j ∈ ids, left j := by
  rw [Finset.sum_update_of_mem hi, Finset.sum_eq_add_sum_sdiff_singleton_of_mem hi]
  omega

theorem prod_factorial_update {ids : Finset ThreadId} (hi : i ∈ ids) (hpos : 0 < left i) :
    left i * ∏ j ∈ ids, (Function.update left i (left i - 1) j).factorial =
      ∏ j ∈ ids, (left j).factorial := by
  have hothers : ∏ j ∈ ids \ {i}, (Function.update left i (left i - 1) j).factorial =
      ∏ j ∈ ids \ {i}, (left j).factorial := by
    apply Finset.prod_congr rfl
    intro j hj
    have hne : j ≠ i := by simpa using (Finset.mem_sdiff.1 hj).2
    rw [Function.update_of_ne hne]
  rw [Finset.prod_eq_mul_prod_sdiff_singleton_of_mem hi,
    Finset.prod_eq_mul_prod_sdiff_singleton_of_mem hi, hothers,
    Function.update_self, ← Nat.mul_assoc, Nat.mul_factorial_pred hpos.ne']

/-- All turns that are left are turns of threads that can run. -/
theorem sum_runnable (h : s.Remaining p left) :
    ((s.runnable p).map left).sum = ∑ i ∈ p.threadIds.toFinset, left i := by
  have hnodup : (s.runnable p).Nodup := by
    rw [← map_fst_successors]
    refine List.pairwise_map.2 ((pairwise_successors p s).imp ?_)
    intro a b hlt heq
    rw [heq] at hlt
    exact Std.Irrefl.irrefl b.1 hlt
  rw [← List.sum_toFinset left hnodup]
  apply Finset.sum_subset
  · intro i hi
    obtain ⟨b, hb⟩ := State.mem_runnable_iff.1 (List.mem_toFinset.1 hi)
    exact List.mem_toFinset.2 (mem_threadIds_of_mem_successors (mem_successors_of_ready hb))
  · intro i hi hnot
    rw [List.mem_toFinset, ← p.map_id_threadList, List.mem_map] at hi
    obtain ⟨t, ht, rfl⟩ := hi
    rw [List.mem_toFinset, h.mem_runnable_iff ht] at hnot
    exact Nat.eq_zero_of_not_pos hnot

/-- The turns that were taken and those that are left come to the same all the way. -/
theorem of_leads (h : s.Remaining p left) (hw : p.Leads s w n) :
    ∃ left', n.Remaining p left' ∧
      w.length + ∑ i ∈ p.threadIds.toFinset, left' i = ∑ i ∈ p.threadIds.toFinset, left i := by
  induction hw with
  | nil => exact ⟨left, h, by simp⟩
  | @snoc w m i b _ hrun hb ih =>
    obtain ⟨left', hm, hsum⟩ := ih
    have hturn : (i, m.fire i b) ∈ m.successors p := mem_successors_iff.2 ⟨hrun, b, hb, rfl⟩
    obtain ⟨hpos, hnext⟩ := hm.successor hturn
    have hstep := sum_update (List.mem_toFinset.2 (mem_threadIds_of_mem_successors hturn)) hpos
    refine ⟨_, hnext, ?_⟩
    rw [List.length_append, List.length_singleton]
    omega

/-- The schedules that take all turns are as many as there are ways to mix the turns of the
threads. -/
theorem length_schedules_mul (h : s.Remaining p left)
    (hm : ∑ i ∈ p.threadIds.toFinset, left i = m) :
    (p.schedules m s).length * ∏ i ∈ p.threadIds.toFinset, (left i).factorial = m.factorial := by
  induction m generalizing s left with
  | zero =>
    have hzero : ∀ i ∈ p.threadIds.toFinset, (left i).factorial = 1 := by
      intro i hi
      rw [Finset.sum_eq_zero_iff.1 hm i hi, Nat.factorial_zero]
    rw [Finset.prod_eq_one hzero]
    rfl
  | succ m ih =>
    -- A first turn of thread `i` leaves `m` turns, and it can be any of the turns of that thread.
    have hturn : ∀ turn ∈ s.successors p,
        (p.schedules m turn.2).length * ∏ i ∈ p.threadIds.toFinset, (left i).factorial =
          left turn.1 * m.factorial := by
      rintro ⟨i, n⟩ hi
      obtain ⟨hpos, hn⟩ := h.successor hi
      have hmem := List.mem_toFinset.2 (mem_threadIds_of_mem_successors hi)
      have hleft := sum_update hmem hpos
      rw [← prod_factorial_update hmem hpos, Nat.mul_left_comm, ih hn (by omega)]
    calc (p.schedules (m + 1) s).length * ∏ i ∈ p.threadIds.toFinset, (left i).factorial
        = ((s.successors p).map fun turn => (p.schedules m turn.2).length *
            ∏ i ∈ p.threadIds.toFinset, (left i).factorial).sum := by
          rw [Program.length_schedules_succ, List.sum_map_mul_right]
      _ = ((s.successors p).map fun turn => left turn.1 * m.factorial).sum := by
          rw [List.map_congr_left hturn]
      _ = ((s.runnable p).map left).sum * m.factorial := by
          rw [List.sum_map_mul_right, ← map_fst_successors, List.map_map]
          rfl
      _ = (m + 1).factorial := by rw [h.sum_runnable, hm, Nat.factorial_succ]

end State.Remaining

namespace Problem

variable {q : Problem} {n : ThreadId → Nat}

theorem remaining_initial
    (h : ∀ t ∈ q.program.threadList, ∃ i, t.start? = some i ∧ t.Straight i (n t.id)) :
    q.initial.Remaining q.program n := by
  intro t ht
  obtain ⟨i, hi, hstraight⟩ := h t ht
  exact .inr ⟨i, (counters_initial ht).trans (congrArg some hi), hstraight⟩

/-- **Straight-line threads interleave in the multinomial number of ways.** Let every thread go
straight from its entry to an END block, through `n i` blocks for the thread numbered `i`, and `N`
blocks in all. Then the schedules of length `N` are as many as the words in which each thread `i`
occurs `n i` times, and no schedule is longer, whatever variables the threads share and whatever
they print. -/
theorem straight_threads_multinomial (q : Problem) (n : ThreadId → Nat) (N : Nat)
    (h : ∀ t ∈ q.program.threadList, ∃ i, t.start? = some i ∧ t.Straight i (n t.id))
    (hN : N = ∑ i ∈ q.program.threadIds.toFinset, n i) (hpos : 1 ≤ N) :
    q.schedulesWithin N = q.schedulesWithin (N - 1) +
      N.factorial / ∏ i ∈ q.program.threadIds.toFinset, (n i).factorial ∧
    ∀ k, N ≤ k → q.schedulesWithin k = q.schedulesWithin N := by
  have hleft := remaining_initial h
  refine ⟨?_, ?_⟩
  · have hcount := hleft.length_schedules_mul hN.symm
    rw [← hcount, Nat.mul_div_cancel _ (Nat.prod_factorial_pos _ _), schedulesWithin_eq_sum,
      schedulesWithin_eq_sum, Nat.sub_add_cancel hpos, Finset.sum_range_succ]
  · intro k hk
    refine schedulesWithin_of_le ?_ hk
    intro w s hw
    obtain ⟨left, -, hsum⟩ := hleft.of_leads hw
    omega

/-- There are `11! / (4! * 4! * 3!)` full schedules. -/
theorem crowd_schedules :
    (∀ t ∈ Demo.crowd.program.threadList, ∃ i, t.start? = some i ∧
      t.Straight i (Demo.crowdTurns t.id)) ∧
    Demo.crowd.schedulesWithin 11 = Demo.crowd.schedulesWithin 10 + 11550 ∧
    Demo.crowd.schedulesWithin 1000 = Demo.crowd.schedulesWithin 11 := by
  have hlength : ∀ t ∈ Demo.crowd.program.threadList, t.start?.bind (t.straightLength? 9) =
      some (Demo.crowdTurns t.id) := by
    decide +kernel
  have hstraight : ∀ t ∈ Demo.crowd.program.threadList, ∃ i, t.start? = some i ∧
      t.Straight i (Demo.crowdTurns t.id) := by
    intro t ht
    obtain ⟨i, hi, hn⟩ := Option.bind_eq_some_iff.1 (hlength t ht)
    exact ⟨i, hi, Thread.straight_of_straightLength? hn⟩
  have hids : Demo.crowd.program.threadIds = [⟨1⟩, ⟨2⟩, ⟨3⟩] := by decide +kernel
  have hvalue : Nat.factorial 11 / ∏ i ∈ [⟨1⟩, ⟨2⟩, ⟨3⟩].toFinset,
      (Demo.crowdTurns i).factorial = 11550 := by
    decide +kernel
  obtain ⟨hcount, hlong⟩ := straight_threads_multinomial Demo.crowd Demo.crowdTurns 11 hstraight
    (by rw [hids]; decide) (by decide)
  -- `11 - 1` is rewritten, since comparing it with `10` under the count would compute the count.
  rw [hids, hvalue, Nat.sub_eq_of_eq_add (show 11 = 10 + 1 from rfl)] at hcount
  exact ⟨hstraight, hcount, hlong 1000 (by decide)⟩

end Problem

end Flowchart
