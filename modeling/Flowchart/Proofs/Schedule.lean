import Flowchart.Problem
import Flowchart.Proofs.Shortlex

/-!
# Valid schedules

`Program.Leads` says what it is for a schedule to be valid and where it leads, in terms of the
threads that can run and of what a step does. The successors of a state, by which a program is
explored, are shown to be exactly its turns, so the relation holds of a schedule and a state if and
only if replaying the schedule gives the state.

## Main definitions

* `Program.Leads`, `Problem.Leads`: a valid schedule and the state it leads to.
* `Problem.Violates`: a state that shows that a problem is not solved.
* `Problem.Bounded`: valid schedules do not get longer than some length.

A step is taken here as `State.fire` counts it, without bound; `Program.step_eq_ok` says that this
is the step of the interpreter as long as the count has room for it.
-/

namespace Flowchart

/-- A thread can run a block if its counter names that block and the block has no need to wait. -/
theorem Program.ready?_eq_some_iff {p : Program} {input : List Int64} {t : ThreadId}
    {counter : Option BlockId} {b : Block} :
    p.ready? input t counter = some b ↔
      ∃ i, counter = some i ∧ p.block? t i = some b ∧
        (b.action.isInput = false ∨ input ≠ []) := by
  simp only [Program.ready?, Option.filter_eq_some_iff, Option.bind_eq_some_iff]
  constructor
  · rintro ⟨⟨i, hi, hb⟩, hwait⟩
    exact ⟨i, hi, hb, by simpa using hwait⟩
  · rintro ⟨i, hi, hb, hwait⟩
    exact ⟨⟨i, hi, hb⟩, by simpa using hwait⟩

theorem Program.current_eq_ok_some_iff {p : Program} {s : State} {t : ThreadId} {b : Block} :
    p.current s t = .ok (some b) ↔ ∃ i, s.counters[t]? = some (some i) ∧ p.block? t i = some b := by
  unfold Program.current Program.block?
  cases hthread : p.thread? t with
  | none => simp
  | some thread =>
    match hcounter : s.counters[t]? with
    | none => simp
    | some none => simp
    | some (some i) => cases hblock : thread.block? i <;> simp [hblock]

/-- The step of the interpreter fires the current block if there is room to count it. -/
theorem Program.step_eq_ok {p : Program} {s : State} {t : ThreadId} {b : Block}
    (hb : p.current s t = .ok (some b)) (hroom : s.depth < maxDepth) :
    p.step s t = .ok (s.fire t b) := by
  simp only [Program.step, hb, if_pos hroom]

namespace State

variable {p : Program} {s s' : State} {t : ThreadId} {b : Block}

theorem mem_ready_iff :
    (t, b) ∈ s.ready p ↔ ∃ c, s.counters[t]? = some c ∧ p.ready? s.input t c = some b := by
  simp only [ready, Program.readyAmong, List.mem_filterMap, Prod.exists, Option.map_eq_some_iff,
    Prod.mk.injEq, Std.ExtTreeMap.mem_toList_iff_getElem?_eq_some]
  constructor
  · rintro ⟨u, c, hc, b', hb', rfl, rfl⟩
    exact ⟨c, hc, hb'⟩
  · rintro ⟨c, hc, hb⟩
    exact ⟨t, c, hc, b, hb, rfl, rfl⟩

theorem mem_runnable_iff : t ∈ s.runnable p ↔ ∃ b, (t, b) ∈ s.ready p := by
  simp [runnable]

/-- The block listed with a thread that can run is the thread's current block. -/
theorem current_of_mem_ready (h : (t, b) ∈ s.ready p) : p.current s t = .ok (some b) := by
  obtain ⟨c, hc, hready⟩ := mem_ready_iff.1 h
  obtain ⟨i, rfl, hb, -⟩ := Program.ready?_eq_some_iff.1 hready
  exact Program.current_eq_ok_some_iff.2 ⟨i, hc, hb⟩

/-- A thread can run if it has a current block and that block has no need to wait. -/
theorem mem_runnable_iff_current :
    t ∈ s.runnable p ↔
      ∃ b, p.current s t = .ok (some b) ∧ (b.action.isInput = false ∨ s.input ≠ []) := by
  simp only [mem_runnable_iff, mem_ready_iff, Program.ready?_eq_some_iff,
    Program.current_eq_ok_some_iff]
  constructor
  · rintro ⟨b, c, hc, i, rfl, hb, hwait⟩
    exact ⟨b, ⟨i, hc, hb⟩, hwait⟩
  · rintro ⟨b, ⟨i, hc, hb⟩, hwait⟩
    exact ⟨b, some i, hc, i, rfl, hb, hwait⟩

/-- A thread that can run is listed with its current block. -/
theorem ready_of_mem_runnable (h : t ∈ s.runnable p) (hb : p.current s t = .ok (some b)) :
    (t, b) ∈ s.ready p := by
  obtain ⟨b', hb'⟩ := mem_runnable_iff.1 h
  rw [current_of_mem_ready hb', Except.ok.injEq, Option.some.injEq] at hb
  exact hb ▸ hb'

/-- The successors of a state are the turns of the threads that can run in it. -/
theorem mem_successors_iff :
    (t, s') ∈ s.successors p ↔
      t ∈ s.runnable p ∧ ∃ b, p.current s t = .ok (some b) ∧ s' = s.fire t b := by
  simp only [successors, List.mem_map, Prod.exists, Prod.mk.injEq]
  constructor
  · rintro ⟨u, b, hb, rfl, rfl⟩
    exact ⟨mem_runnable_iff.2 ⟨b, hb⟩, b, current_of_mem_ready hb, rfl⟩
  · rintro ⟨hrun, b, hb, rfl⟩
    exact ⟨t, b, ready_of_mem_runnable hrun hb, rfl, rfl⟩

theorem exists_ready_of_mem_successors (h : (t, s') ∈ s.successors p) :
    ∃ b, (t, b) ∈ s.ready p ∧ s' = s.fire t b := by
  simp only [successors, List.mem_map, Prod.exists, Prod.mk.injEq] at h
  obtain ⟨u, b, hb, rfl, rfl⟩ := h
  exact ⟨b, hb, rfl⟩

theorem mem_successors_of_ready (h : (t, b) ∈ s.ready p) : (t, s.fire t b) ∈ s.successors p :=
  List.mem_map.2 ⟨(t, b), h, rfl⟩

theorem depth_of_mem_successors (h : (t, s') ∈ s.successors p) : s'.depth = s.depth + 1 := by
  obtain ⟨-, b, -, rfl⟩ := mem_successors_iff.1 h
  exact depth_fire s t b

/-- The successors are listed in ascending order of the threads. -/
theorem pairwise_successors (p : Program) (s : State) :
    (s.successors p).Pairwise fun a b => a.1 < b.1 := by
  rw [successors, List.pairwise_map, ready, Program.readyAmong, List.pairwise_filterMap]
  refine Std.ExtTreeMap.ordered_keys_toList.imp ?_
  intro x y hlt a ha b hb
  rw [Option.map_eq_some_iff] at ha hb
  obtain ⟨_, -, rfl⟩ := ha
  obtain ⟨_, -, rfl⟩ := hb
  exact ThreadId.compare_eq_lt_iff.1 hlt

theorem advance?_eq_some_iff : s.advance? p t = some s' ↔ (t, s') ∈ s.successors p := by
  rw [advance?, List.lookup_eq_some_iff]
  constructor
  · rintro ⟨before, after, hsplit, -⟩
    simp [hsplit]
  · intro h
    obtain ⟨before, after, hsplit⟩ := List.append_of_mem h
    refine ⟨before, after, hsplit, ?_⟩
    intro turn hturn
    have hpair := pairwise_successors p s
    rw [hsplit, List.pairwise_append] at hpair
    have hlt : turn.1 < t := hpair.2.2 turn hturn (t, s') List.mem_cons_self
    rw [bne_iff_ne]
    rintro rfl
    exact Std.Irrefl.irrefl turn.1 hlt

/-- A thread that can run has not ended. -/
theorem isComplete_eq_false_of_mem_runnable (h : t ∈ s.runnable p) : s.isComplete = false := by
  obtain ⟨b, hb⟩ := mem_runnable_iff.1 h
  obtain ⟨c, hc, hready⟩ := mem_ready_iff.1 hb
  obtain ⟨i, rfl, -, -⟩ := Program.ready?_eq_some_iff.1 hready
  rw [Bool.eq_false_iff]
  intro hcomplete
  have := isComplete_iff.1 hcomplete t (some i) hc
  cases this

theorem runnable_eq_nil_of_isComplete (p : Program) (h : s.isComplete = true) :
    s.runnable p = [] := by
  rw [List.eq_nil_iff_forall_not_mem]
  intro t ht
  have := isComplete_eq_false_of_mem_runnable ht
  simp [h] at this

/-- What a block prints is appended to the output. -/
theorem output_prefix_fire (s : State) (t : ThreadId) (b : Block) :
    s.output <+: (s.fire t b).output := by
  change s.output <+: (b.action.effect s).output
  cases b.action with
  | input var next =>
    simp only [Action.effect]
    split
    · exact List.prefix_rfl
    · exact List.prefix_rfl
  | print var next => exact List.prefix_append _ _
  | _ => exact List.prefix_rfl

end State

namespace Program

/-- The schedule is valid from `s` and leads to a state: every thread in it can run when its turn
comes, and then runs its current block. -/
inductive Leads (p : Program) (s : State) : List ThreadId → State → Prop
  | nil : Leads p s [] s
  | snoc {w : List ThreadId} {m : State} {t : ThreadId} {b : Block} (before : Leads p s w m)
      (runnable : t ∈ m.runnable p) (current : p.current m t = .ok (some b)) :
      Leads p s (w ++ [t]) (m.fire t b)

namespace Leads

variable {p : Program} {s m n : State} {w : List ThreadId} {t : ThreadId}

theorem successor (h : p.Leads s w m) (ht : (t, n) ∈ m.successors p) :
    p.Leads s (w ++ [t]) n := by
  obtain ⟨hrun, b, hb, rfl⟩ := State.mem_successors_iff.1 ht
  exact h.snoc hrun hb

theorem depth_eq (h : p.Leads s w m) : m.depth = s.depth + w.length := by
  induction h with
  | nil => rfl
  | snoc _ _ _ ih =>
    rw [State.depth_fire, ih, List.length_append, List.length_singleton, Nat.add_assoc]

end Leads

/-- A schedule leads to the state that is found by replaying it. -/
theorem leads_iff_replay? {p : Program} {s m : State} {w : List ThreadId} :
    p.Leads s w m ↔ s.replay? p w = some m := by
  constructor
  · intro h
    induction h with
    | nil => rfl
    | @snoc w m t b _ hrun hb ih =>
      have hturn : m.advance? p t = some (m.fire t b) :=
        State.advance?_eq_some_iff.2 (State.mem_successors_iff.2 ⟨hrun, b, hb, rfl⟩)
      simp [State.replay?_append, ih, State.replay?_cons, hturn]
  · intro h
    -- Replaying goes from the front, while a valid schedule is built at its end.
    induction w using List.reverseRecOn generalizing m with
    | nil =>
      obtain rfl : s = m := by simpa using h
      exact .nil
    | append_singleton w t ih =>
      rw [State.replay?_append, Option.bind_eq_some_iff] at h
      obtain ⟨m', hm', hturn⟩ := h
      have hsucc : (t, m) ∈ m'.successors p := by
        rw [← State.advance?_eq_some_iff]
        simpa [State.replay?_cons, Option.bind_eq_some_iff] using hturn
      exact (ih hm').successor hsucc

/-- A schedule leads to one state only. -/
theorem Leads.unique {p : Program} {s m n : State} {w : List ThreadId} (hm : p.Leads s w m)
    (hn : p.Leads s w n) : m = n := by
  rw [leads_iff_replay?] at hm hn
  exact Option.some.inj (hm.symm.trans hn)

/-- A schedule with a first turn goes on from a successor. -/
theorem leads_cons_iff {p : Program} {s m : State} {t : ThreadId} {w : List ThreadId} :
    p.Leads s (t :: w) m ↔ ∃ n, (t, n) ∈ s.successors p ∧ p.Leads n w m := by
  simp only [leads_iff_replay?, State.replay?_cons, Option.bind_eq_some_iff,
    State.advance?_eq_some_iff]

theorem Leads.output_prefix {p : Program} {s m : State} {w : List ThreadId} (h : p.Leads s w m) :
    s.output <+: m.output := by
  induction h with
  | nil => exact List.prefix_rfl
  | snoc _ _ _ ih => exact ih.trans (State.output_prefix_fire _ _ _)

end Program

namespace Problem

/-- The schedule is valid and leads from the beginning to a state. -/
def Leads (q : Problem) (w : List ThreadId) (s : State) : Prop :=
  q.program.Leads q.initial w s

/-- The output of the state does not begin the expected one, or all threads have ended and the two
differ. -/
def Violates (q : Problem) (s : State) : Prop :=
  ¬ s.output <+: q.expected ∨ (s.isComplete = true ∧ s.output ≠ q.expected)

/-- There is a length that no valid schedule exceeds. -/
def Bounded (q : Problem) : Prop :=
  ∃ n, ∀ w s, q.Leads w s → w.length ≤ n

theorem mismatch?_eq_none_iff {q : Problem} {s : State} :
    q.mismatch? s = none ↔ ¬ q.Violates s := by
  rw [Violates, ← isSome_mismatch?_iff, Option.not_isSome_iff_eq_none]

theorem violates_of_mismatch? {q : Problem} {s : State} {m : Mismatch}
    (h : q.mismatch? s = some m) : q.Violates s := by
  rw [Violates, ← isSome_mismatch?_iff, h, Option.isSome_some]

/-- The depth of a state is the length of every schedule that leads to it. -/
theorem Leads.depth_eq_length {q : Problem} {w : List ThreadId} {s : State} (h : q.Leads w s) :
    s.depth = w.length := by
  have hdepth : s.depth = 0 + w.length := Program.Leads.depth_eq h
  omega

theorem reachable_iff_leads {q : Problem} {s : State} : q.Reachable s ↔ ∃ w, q.Leads w s :=
  exists_congr fun _ => Program.leads_iff_replay?.symm

end Problem

end Flowchart
