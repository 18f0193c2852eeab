import Flowchart.Proofs.Census
import Flowchart.Proofs.Conservation
import Flowchart.Proofs.ControlFlow
import Flowchart.Proofs.Coverage
import Mathlib.Data.ENat.Lattice

/-!
# Programs with one thread

A thread that is alone has no choice. It goes on step by step until it has ended, waits for input
that does not come, or is at a number without a block, and it may go on for ever. All that is said
about schedules then comes down to this one execution: there is one schedule of each length that the
execution has, and one state for each schedule, since states count their steps.

## Main definitions

* `Program.proceed?`, `Program.execute?`: the execution of one thread.
* `State.Halted`: the thread cannot go on.
* `Program.lifespan`: the number of steps that the execution has, which may be infinite.

## Main results

* `State.mem_successors_iff_proceed?`: a turn is a step of the execution of its thread.
* `Problem.leads_iff_execute?`: the schedules of a thread that is alone.
* `Problem.lone_thread_sequential`: exploration and counts for a thread that is alone.
-/

namespace Flowchart

/-- A thread that prints what it reads, over and over. If it reads 7, it goes on to a number without
a block. -/
def Demo.repeater : Problem where
  program := (Demo.Outline.program
    { name := "repeater"
      declared := ["x"]
      threads := [
        (⟨1⟩, [⟨⟨0⟩, .start ⟨1⟩⟩, ⟨⟨1⟩, .input "x" ⟨2⟩⟩, ⟨⟨2⟩, .branch ⟨"x", .equal, 7⟩ ⟨9⟩ ⟨3⟩⟩,
          ⟨⟨3⟩, .print "x" ⟨1⟩⟩])] }).toOption.get (by decide +kernel)
  input := [5, -1]
  expected := [5, 4294967295, 8]

/-! ### Executing one thread -/

/-- The state after the next step of a thread. There is none if the thread has no current block or
has to wait. -/
def Program.proceed? (p : Program) (t : ThreadId) (s : State) : Option State :=
  match p.current s t with
  | .ok (some b) => if b.action.isInput && s.input.isEmpty then none else some (s.fire t b)
  | _ => none

/-- The state after `n` steps of a thread, if it can take so many. -/
def Program.execute? (p : Program) (t : ThreadId) (s : State) : Nat → Option State
  | 0 => some s
  | n + 1 => (p.execute? t s n).bind (p.proceed? t)

/-- The number of steps that a thread can take, if it is given every turn. -/
noncomputable def Program.lifespan (p : Program) (t : ThreadId) (s : State) : ℕ∞ :=
  {n : ℕ | (p.execute? t s (n + 1)).isSome}.encard

/-- The thread has ended, or its counter names no block, or it waits for input and there is none. -/
def State.Halted (p : Program) (t : ThreadId) (s : State) : Prop :=
  s.counters[t]? = some none ∨ ∃ i, s.counters[t]? = some (some i) ∧
    (p.block? t i = none ∨ s.input = [] ∧ ∃ b, p.block? t i = some b ∧ b.action.isInput = true)

namespace Program

variable {p : Program} {t : ThreadId} {s m m' : State} {n k : Nat}

theorem proceed?_eq_some_iff :
    p.proceed? t s = some m ↔ ∃ b, p.current s t = .ok (some b) ∧
      (b.action.isInput = false ∨ s.input ≠ []) ∧ m = s.fire t b := by
  rw [proceed?]
  split
  · next b hb =>
    rw [hb]
    by_cases hwait : (b.action.isInput && s.input.isEmpty) = true
    · rw [if_pos hwait]
      simp_all
    · rw [if_neg hwait]
      rw [Bool.and_eq_true, not_and_or, Bool.not_eq_true, List.isEmpty_iff] at hwait
      simp only [Option.some.injEq, Except.ok.injEq, exists_eq_left', hwait, true_and]
      exact eq_comm
  · next hother =>
    simp only [reduceCtorEq, false_iff, not_exists, not_and]
    intro b hb
    exact absurd hb (hother b)

/-- The execution takes the steps of the interpreter, as long as there is room to count them. -/
theorem step_of_proceed? (h : p.proceed? t s = some m) (hroom : s.depth < maxDepth) :
    p.step s t = .ok m := by
  obtain ⟨b, hb, -, rfl⟩ := proceed?_eq_some_iff.1 h
  exact step_eq_ok hb hroom

/-- The execution of a thread of the program comes to its end where the thread cannot go on. -/
theorem proceed?_eq_none_iff (ht : t ∈ s.counters) : p.proceed? t s = none ↔ s.Halted p t := by
  rw [Std.ExtTreeMap.mem_iff_isSome_getElem?, Option.isSome_iff_exists] at ht
  obtain ⟨c, hc⟩ := ht
  simp only [Option.eq_none_iff_forall_ne_some, ne_eq, proceed?_eq_some_iff,
    current_eq_ok_some_iff, State.Halted, hc]
  cases c with
  | none => simp
  | some i =>
    cases hb : p.block? t i with
    | none => simp [hb]
    | some b =>
      -- There is a block, so the thread goes on unless it has to wait.
      have hgoes : ¬ (b.action.isInput = false ∨ s.input ≠ []) ↔
          s.input = [] ∧ b.action.isInput = true := by
        rw [not_or, Bool.not_eq_false, not_not, and_comm]
      simpa [hb] using hgoes

theorem execute?_succ_eq_some_iff :
    p.execute? t s (n + 1) = some m' ↔
      ∃ m, p.execute? t s n = some m ∧ p.proceed? t m = some m' := by
  rw [execute?, Option.bind_eq_some_iff]

theorem isSome_execute?_of_le (hkn : k ≤ n) (h : (p.execute? t s n).isSome) :
    (p.execute? t s k).isSome := by
  induction hkn with
  | refl => exact h
  | step _ ih =>
    obtain ⟨m', hm'⟩ := Option.isSome_iff_exists.1 h
    obtain ⟨m, hm, -⟩ := execute?_succ_eq_some_iff.1 hm'
    exact ih (Option.isSome_iff_exists.2 ⟨m, hm⟩)

theorem isSome_execute?_iff : (p.execute? t s n).isSome ↔ (n : ℕ∞) ≤ p.lifespan t s := by
  have hcard (j : Nat) : (j : ℕ∞) = (↑(Finset.range j) : Set ℕ).encard := by
    rw [Set.encard_coe_eq_coe_finsetCard, Finset.card_range]
  constructor
  · intro h
    rw [hcard, lifespan]
    refine Set.encard_le_encard ?_
    intro i hi
    exact isSome_execute?_of_le (Finset.mem_range.1 hi) h
  · intro hn
    by_contra h
    cases n with
    | zero => exact h rfl
    | succ j =>
      -- A step that cannot be taken is followed by none.
      have hle : p.lifespan t s ≤ j := by
        rw [hcard, lifespan]
        refine Set.encard_le_encard ?_
        intro i hi
        rw [Finset.coe_range, Set.mem_Iio]
        by_contra hij
        exact h (isSome_execute?_of_le (by omega) hi)
      have hlt : ((j + 1 : ℕ) : ℕ∞) ≤ j := hn.trans hle
      rw [Nat.cast_le] at hlt
      omega

theorem exists_execute?_iff : (∃ m, p.execute? t s n = some m) ↔ (n : ℕ∞) ≤ p.lifespan t s := by
  rw [← Option.isSome_iff_exists, isSome_execute?_iff]

theorem lifespan_eq_coe (hlast : (p.execute? t s n).isSome)
    (hend : p.execute? t s (n + 1) = none) : p.lifespan t s = n := by
  refine le_antisymm ?_ (isSome_execute?_iff.1 hlast)
  rw [← not_lt, ← ENat.add_one_le_iff (ENat.natCast_ne_top n), ← Nat.cast_add_one,
    ← isSome_execute?_iff, hend]
  exact Bool.false_ne_true

/-- An execution has one state more than it has steps. -/
theorem encard_execute? (p : Program) (t : ThreadId) (s : State) (k : Nat) :
    {n : ℕ | n ≤ k ∧ ∃ m, p.execute? t s n = some m}.encard =
      1 + min (k : ℕ∞) (p.lifespan t s) := by
  obtain ⟨l, hl⟩ : ∃ l : ℕ, (l : ℕ∞) = min (k : ℕ∞) (p.lifespan t s) :=
    ENat.ne_top_iff_exists.1 (min_lt_of_left_lt (ENat.natCast_lt_top k)).ne
  have hset : {n : ℕ | n ≤ k ∧ ∃ m, p.execute? t s n = some m} = ↑(Finset.range (l + 1)) := by
    ext n
    have hcast : n ≤ k ↔ (n : ℕ∞) ≤ k := Nat.cast_le.symm
    rw [Set.mem_ofPred_eq, exists_execute?_iff, hcast, ← le_min_iff, ← hl]
    simp
  rw [hset, Set.encard_coe_eq_coe_finsetCard, Finset.card_range, ← hl, Nat.cast_add_one, add_comm]

end Program

/-- In every program, a turn of a thread is a step of the execution of that thread. -/
theorem State.mem_successors_iff_proceed? {p : Program} {t : ThreadId} {s m : State} :
    (t, m) ∈ s.successors p ↔ p.proceed? t s = some m := by
  rw [State.mem_successors_iff, State.mem_runnable_iff_current, Program.proceed?_eq_some_iff]
  constructor
  · rintro ⟨⟨b, hb, hwait⟩, b', hb', rfl⟩
    rw [hb, Except.ok.injEq, Option.some.injEq] at hb'
    subst hb'
    exact ⟨b, hb, hwait, rfl⟩
  · rintro ⟨b, hb, hwait, rfl⟩
    exact ⟨⟨b, hb, hwait⟩, b, hb, rfl⟩

/-! ### A thread that is alone -/

namespace Problem

section Lone

variable {q : Problem} {t : Thread} (h : q.program.threadList = [t])
  {w : List ThreadId} {s : State} {n k : Nat}

include h

theorem threadIds_of_lone : q.program.threadIds = [t.id] := by
  rw [← q.program.map_id_threadList, h, List.map_singleton]

/-- The schedules of a thread that is alone give it every turn. -/
theorem leads_iff_execute? :
    q.Leads w s ↔
      ∃ n, w = List.replicate n t.id ∧ q.program.execute? t.id q.initial n = some s := by
  constructor
  · intro hw
    induction hw with
    | nil => exact ⟨0, rfl, rfl⟩
    | @snoc w m u b _ hrun hb ih =>
      obtain ⟨n, rfl, hm⟩ := ih
      have hturn := State.mem_successors_iff.2 ⟨hrun, b, hb, rfl⟩
      have hu : u ∈ q.program.threadIds := State.mem_threadIds_of_mem_successors hturn
      rw [threadIds_of_lone h, List.mem_singleton] at hu
      subst hu
      refine ⟨n + 1, List.replicate_succ'.symm, ?_⟩
      exact Program.execute?_succ_eq_some_iff.2 ⟨m, hm, State.mem_successors_iff_proceed?.1 hturn⟩
  · rintro ⟨n, rfl, hs⟩
    induction n generalizing s with
    | zero =>
      cases hs
      exact .nil
    | succ n ih =>
      obtain ⟨m, hm, hturn⟩ := Program.execute?_succ_eq_some_iff.1 hs
      rw [List.replicate_succ']
      exact (ih hm).successor (State.mem_successors_iff_proceed?.2 hturn)

theorem leads_of_execute? (hs : q.program.execute? t.id q.initial n = some s) :
    q.Leads (List.replicate n t.id) s :=
  (leads_iff_execute? h).2 ⟨n, rfl, hs⟩

theorem depth_of_execute? (hs : q.program.execute? t.id q.initial n = some s) : s.depth = n := by
  rw [(leads_of_execute? h hs).depth_eq_length, List.length_replicate]

theorem mem_counters_of_execute? (hs : q.program.execute? t.id q.initial n = some s)
    {u : ThreadId} : u ∈ s.counters ↔ u = t.id := by
  rw [(leads_of_execute? h hs).mem_counters_iff, mem_counters_initial, threadIds_of_lone h,
    List.mem_singleton]

/-- A thread that is alone has ended when all threads have. -/
theorem isComplete_iff_of_execute? (hs : q.program.execute? t.id q.initial n = some s) :
    s.isComplete = true ↔ s.counters[t.id]? = some none := by
  rw [State.isComplete_iff]
  constructor
  · intro hall
    have ht : t.id ∈ s.counters := (mem_counters_of_execute? h hs).2 rfl
    rw [Std.ExtTreeMap.mem_iff_isSome_getElem?, Option.isSome_iff_exists] at ht
    obtain ⟨c, hc⟩ := ht
    rw [hc, hall t.id c hc]
  · intro hended u c hc
    have hu : u ∈ s.counters := by
      rw [Std.ExtTreeMap.mem_iff_isSome_getElem?, hc]
      rfl
    rw [mem_counters_of_execute? h hs] at hu
    subst hu
    rw [hended, Option.some.injEq] at hc
    exact hc.symm

/-! ### Counts -/

theorem schedulesWithin_of_lone (k : Nat) :
    (q.schedulesWithin k : ℕ∞) = 1 + min (k : ℕ∞) (q.program.lifespan t.id q.initial) := by
  have hset : {w | w.length ≤ k ∧ q.Valid w} = (fun n => List.replicate n t.id) ''
      {n : ℕ | n ≤ k ∧ ∃ s, q.program.execute? t.id q.initial n = some s} := by
    ext w
    constructor
    · rintro ⟨hk, s, hw⟩
      obtain ⟨n, rfl, hs⟩ := (leads_iff_execute? h).1 hw
      rw [List.length_replicate] at hk
      exact ⟨n, ⟨hk, s, hs⟩, rfl⟩
    · rintro ⟨n, ⟨hk, s, hs⟩, rfl⟩
      exact ⟨List.length_replicate.trans_le hk, s, leads_of_execute? h hs⟩
  have hinj : Function.Injective fun n => List.replicate n t.id := by
    intro i j hij
    simpa using congrArg List.length hij
  rw [schedulesWithin_eq_ncard, (q.finite_valid k).cast_ncard_eq, hset, hinj.encard_image,
    Program.encard_execute?]

/-- No state is met twice, since the states of the execution count its steps. -/
theorem totalWithin_of_lone (k : Nat) :
    (q.totalWithin k : ℕ∞) = 1 + min (k : ℕ∞) (q.program.lifespan t.id q.initial) := by
  have hexecuted {s : State} (hs : q.Reachable s) :
      q.program.execute? t.id q.initial s.depth = some s := by
    obtain ⟨w, hw⟩ := reachable_iff_leads.1 hs
    obtain ⟨n, -, hn⟩ := (leads_iff_execute? h).1 hw
    rwa [depth_of_execute? h hn]
  have hinj : Set.InjOn State.depth {s | q.Reachable s ∧ s.depth ≤ k} := by
    intro s hs m hm heq
    have hsame := hexecuted hs.1
    rw [heq, hexecuted hm.1, Option.some.injEq] at hsame
    exact hsame.symm
  have himage : State.depth '' {s | q.Reachable s ∧ s.depth ≤ k} =
      {n : ℕ | n ≤ k ∧ ∃ s, q.program.execute? t.id q.initial n = some s} := by
    ext n
    constructor
    · rintro ⟨s, ⟨hs, hk⟩, rfl⟩
      exact ⟨hk, s, hexecuted hs⟩
    · rintro ⟨hk, s, hs⟩
      have hdepth := depth_of_execute? h hs
      exact ⟨s, ⟨reachable_iff_leads.2 ⟨_, leads_of_execute? h hs⟩, hdepth.trans_le hk⟩, hdepth⟩
  rw [totalWithin_eq_ncard, (q.finite_reachable k).cast_ncard_eq, ← hinj.encard_image, himage,
    Program.encard_execute?]

/-! ### The verdict -/

/-- Every schedule goes on to the end of the execution. -/
theorem exists_rest_of_lifespan {m : State} (hn : q.program.lifespan t.id q.initial = n)
    (hs : q.program.execute? t.id q.initial n = some s) (hw : q.Leads w m) :
    ∃ j, w.length + j = n ∧ q.program.Leads m (List.replicate j t.id) s := by
  obtain ⟨i, rfl, hm⟩ := (leads_iff_execute? h).1 hw
  have hi : (i : ℕ∞) ≤ n := hn ▸ Program.exists_execute?_iff.1 ⟨m, hm⟩
  obtain ⟨j, rfl⟩ := Nat.exists_eq_add_of_le (Nat.cast_le.1 hi)
  have hlast := leads_of_execute? h hs
  rw [List.replicate_add] at hlast
  exact ⟨j, by rw [List.length_replicate], Program.Leads.of_append hw hlast⟩

/-- The execution has to come to an end, and its last state decides. -/
theorem verified_iff_of_lone :
    q.Verified ↔ ∃ (n : ℕ) (s : State), q.program.lifespan t.id q.initial = n ∧
      q.program.execute? t.id q.initial n = some s ∧ s.output <+: q.expected ∧
      (s.counters[t.id]? = some none → s.output = q.expected) := by
  rw [verified_iff]
  constructor
  · rintro ⟨hclean, bound, hbound⟩
    have hfinite : q.program.lifespan t.id q.initial ≠ ⊤ := by
      intro htop
      obtain ⟨s, hs⟩ : ∃ s, q.program.execute? t.id q.initial (bound + 1) = some s :=
        Program.exists_execute?_iff.2 (htop ▸ le_top)
      have hlong := hbound _ s (leads_of_execute? h hs)
      rw [List.length_replicate] at hlong
      omega
    obtain ⟨n, hn⟩ := ENat.ne_top_iff_exists.1 hfinite
    obtain ⟨s, hs⟩ := Program.exists_execute?_iff.2 hn.le
    have hok := hclean _ s (leads_of_execute? h hs)
    rw [Violates, not_or, not_not, not_and, not_not] at hok
    refine ⟨n, s, hn.symm, hs, hok.1, ?_⟩
    intro hended
    exact hok.2 ((isComplete_iff_of_execute? h hs).2 hended)
  · rintro ⟨n, s, hn, hs, hprefix, hended⟩
    constructor
    · intro w m hw
      obtain ⟨j, -, hrest⟩ := exists_rest_of_lifespan h hn hs hw
      rw [Violates, not_or, not_not, not_and, not_not]
      refine ⟨hrest.output_prefix.trans hprefix, ?_⟩
      intro hcomplete
      -- A thread that has ended takes no further step, so this is the last state.
      cases j with
      | zero =>
        obtain rfl : m = s := Program.Leads.nil.unique hrest
        exact hended ((isComplete_iff_of_execute? h hs).1 hcomplete)
      | succ j =>
        obtain ⟨m', hm', -⟩ := Program.leads_cons_iff.1 (List.replicate_succ ▸ hrest)
        have hopen := State.isComplete_eq_false_of_mem_runnable (State.mem_successors_iff.1 hm').1
        exact absurd hcomplete (Bool.eq_false_iff.1 hopen)
    · refine ⟨n, ?_⟩
      intro w m hw
      obtain ⟨j, hj, -⟩ := exists_rest_of_lifespan h hn hs hw
      omega

/-- Nothing is left out and nothing is examined twice. -/
theorem explored_of_lone {r : Run} (hr : q.Ends none r) (hv : r.verdict = .verified) :
    (r.exploration.explored : ℕ∞) = q.program.lifespan t.id q.initial + 1 := by
  obtain ⟨l, s, hl, -⟩ := (verified_iff_of_lone h).1 ⟨r, hr, hv⟩
  obtain ⟨n, hn⟩ := hr.exists_explored_eq_of_verified hv
  rw [hn (max n l) (Nat.le_max_left n l), totalWithin_of_lone h, hl, add_comm,
    min_eq_right (Nat.cast_le.2 (Nat.le_max_right n l))]

end Lone

/-- **A thread that is alone is executed and nothing else.** The execution takes the steps of the
interpreter until the thread cannot go on. Up to any length there is one schedule and one state for
each number of steps that it takes. The verdict is that there is no mismatch if the execution comes
to an end, what it has printed is a prefix of what is expected, and all of it if the thread has
ended; then exploration meets and examines each state of the execution. -/
theorem lone_thread_sequential (q : Problem) (t : Thread) (h : q.program.threadList = [t]) :
    (∀ n s, q.program.execute? t.id q.initial n = some s →
      (q.program.execute? t.id q.initial (n + 1) = none ↔ s.Halted q.program t.id) ∧
      ∀ m, q.program.execute? t.id q.initial (n + 1) = some m → n < maxDepth →
        q.program.step s t.id = .ok m) ∧
    (∀ k : ℕ,
      (q.totalWithin k : ℕ∞) = 1 + min (k : ℕ∞) (q.program.lifespan t.id q.initial) ∧
      (q.schedulesWithin k : ℕ∞) = 1 + min (k : ℕ∞) (q.program.lifespan t.id q.initial)) ∧
    (q.Verified ↔ ∃ (n : ℕ) (s : State), q.program.lifespan t.id q.initial = n ∧
      q.program.execute? t.id q.initial n = some s ∧ s.output <+: q.expected ∧
      (s.counters[t.id]? = some none → s.output = q.expected)) ∧
    ∀ r, q.Ends none r → r.verdict = .verified →
      (r.exploration.visited : ℕ∞) = q.program.lifespan t.id q.initial + 1 ∧
      (r.exploration.explored : ℕ∞) = q.program.lifespan t.id q.initial + 1 := by
  refine ⟨?_, fun k => ⟨totalWithin_of_lone h k, schedulesWithin_of_lone h k⟩,
    verified_iff_of_lone h, ?_⟩
  · intro n s hs
    have hnext : q.program.execute? t.id q.initial (n + 1) = q.program.proceed? t.id s := by
      rw [Program.execute?, hs, Option.bind_some]
    rw [hnext]
    refine ⟨Program.proceed?_eq_none_iff ((mem_counters_of_execute? h hs).2 rfl), ?_⟩
    intro m hm hroom
    exact Program.step_of_proceed? hm (by rwa [depth_of_execute? h hs])
  · intro r hr hv
    have hexplored := explored_of_lone h hr hv
    rw [hr.visited_eq_explored_of_verified hv]
    exact ⟨hexplored, hexplored⟩

/-- The thread prints both numbers and then waits. It has not ended, so more may be expected. -/
theorem repeater_sequential :
    (∃ t, Demo.repeater.program.threadList = [t]) ∧
    Demo.repeater.program.lifespan ⟨1⟩ Demo.repeater.initial = 7 ∧
    (∀ k, Demo.repeater.totalWithin k = 1 + min k 7 ∧
      Demo.repeater.schedulesWithin k = 1 + min k 7) ∧
    ∃ r, Demo.repeater.Ends none r ∧ r.verdict = .verified ∧
      r.exploration.visited = 8 ∧ r.exploration.explored = 8 := by
  have hids : Demo.repeater.program.threadList.map Thread.id = [⟨1⟩] := by decide +kernel
  obtain ⟨t, ht, hid⟩ := List.map_eq_singleton_iff.1 hids
  have hlast : (Demo.repeater.program.execute? ⟨1⟩ Demo.repeater.initial 7).map
      (fun s => (s.output, s.counters[(⟨1⟩ : ThreadId)]?)) =
        some ([5, 4294967295], some (some ⟨1⟩)) := by
    decide +kernel
  have hend : (Demo.repeater.program.execute? ⟨1⟩ Demo.repeater.initial 8).isNone := by
    decide +kernel
  obtain ⟨s, hs, hfields⟩ := Option.map_eq_some_iff.1 hlast
  obtain ⟨houtput, hcounter⟩ := Prod.mk.inj hfields
  have hlife : Demo.repeater.program.lifespan ⟨1⟩ Demo.repeater.initial = 7 :=
    Program.lifespan_eq_coe (Option.isSome_of_eq_some hs) (Option.isNone_iff_eq_none.1 hend)
  obtain ⟨-, hcounts, hverdict, hvisited⟩ := lone_thread_sequential Demo.repeater t ht
  rw [hid, hlife] at hcounts hvisited
  have hverified : Demo.repeater.Verified := by
    refine hverdict.2 ⟨7, s, hid ▸ hlife, hid ▸ hs, ?_, ?_⟩
    · rw [houtput]
      exact ⟨[8], rfl⟩
    · rw [hid, hcounter]
      intro hended
      cases hended
  obtain ⟨r, hr, hv⟩ := hverified
  refine ⟨⟨t, ht⟩, hlife, ?_, r, hr, hv, ?_⟩
  · intro k
    have hmin : ((min k 7 : ℕ) : ℕ∞) = min (k : ℕ∞) 7 := Nat.mono_cast.map_min
    have hk := hcounts k
    rw [← hmin] at hk
    exact_mod_cast hk
  · exact_mod_cast hvisited r hr hv

end Problem

end Flowchart
