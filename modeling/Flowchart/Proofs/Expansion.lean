import Flowchart.Proofs.Canonical
import Flowchart.Proofs.Step
import Flowchart.Proofs.Verdict

/-!
# Expansion of snapshots

Which threads can run is read off the entries of a snapshot, while a step is taken in the state that
the snapshot describes. The two look the current block up in different ways and have to agree, since
a step that fails ends everything. They do if no thread has two entries, whatever the order of the
entries and whatever blocks are missing from the program.

## Main definitions

* `Snapshot.step`: a step from a snapshot to a snapshot.

## Main results

* `Program.current_eq_error_iff`: when there is no current block to run.
* `State.mem_runnable_iff_step`: a thread can run if it takes a step and is not kept waiting.
* `Snapshot.successors_snapshot`: the successors of a state, written down, are those of its
  snapshot.
* `Snapshot.runnable_perm`: the threads that can run, by the entries and by the state.
* `Snapshot.expansion_agrees`: snapshots are expanded without fault.
-/

namespace Flowchart

/-- A snapshot with its entries out of order, for a program of the threads 1 and 2. -/
def Demo.scrambled : Snapshot where
  counters := #[(⟨7⟩, some ⟨0⟩), (⟨2⟩, some ⟨1⟩), (⟨1⟩, some ⟨1⟩)]
  store := #[("x", 1)]
  input := []
  output := []
  depth := 3

namespace Program

variable {p : Program} {s : State} {t : ThreadId}

theorem current_eq_ok_none_iff :
    p.current s t = .ok none ↔ p.thread? t ≠ none ∧ s.counters[t]? = some none := by
  unfold Program.current
  cases hthread : p.thread? t with
  | none => simp
  | some thread =>
    match hcounter : s.counters[t]? with
    | none => simp
    | some none => simp
    | some (some i) => cases hblock : thread.block? i <;> simp [hblock]

theorem current_eq_error_iff :
    (∃ fault, p.current s t = .error fault) ↔
      p.thread? t = none ∨ s.counters[t]? = none ∨
        ∃ i, s.counters[t]? = some (some i) ∧ p.block? t i = none := by
  unfold Program.current Program.block?
  cases hthread : p.thread? t with
  | none => simp
  | some thread =>
    match hcounter : s.counters[t]? with
    | none => simp
    | some none => simp
    | some (some i) => cases hblock : thread.block? i <;> simp [hblock]

theorem step_of_ended (h : p.current s t = .ok none) : p.step s t = .ok s := by
  simp only [step, h]

/-- With room to count it, a step fails only for want of a current block. -/
theorem step_eq_error_iff (hroom : s.depth < maxDepth) :
    (∃ fault, p.step s t = .error fault) ↔ ∃ fault, p.current s t = .error fault := by
  cases h : p.current s t with
  | error fault => simp [step, h]
  | ok block =>
    cases block with
    | none => simp [step_of_ended h]
    | some b => simp [step_eq_ok h hroom]

end Program

namespace State

variable {p : Program} {s : State} {t : ThreadId} {b : Block}

/-- An INPUT block that finds no input is tried again: nothing but the count of steps changes. -/
theorem fire_of_starved (hb : p.current s t = .ok (some b)) (hin : b.action.isInput = true)
    (hempty : s.input = []) : s.fire t b = { s with depth := s.depth + 1 } := by
  obtain ⟨i, hi, hblock⟩ := Program.current_eq_ok_some_iff.1 hb
  obtain ⟨-, -, -, -, rfl⟩ := Program.block?_eq_some_iff.1 hblock
  cases haction : b.action with
  | input var next =>
    apply State.ext
    · apply Std.ExtTreeMap.ext_getElem?
      intro u
      rw [getElem?_counters_fire]
      by_cases hu : t = u
      · subst hu
        simp [hi, haction, Action.next?, hempty]
      · rw [if_neg hu]
    · simp [store_fire, haction, Action.change?, hempty]
    · simp [input_fire, hempty]
    · simp [output_fire, haction, Action.printed]
    · rfl
  | _ => simp [haction, Action.isInput] at hin

/-- A thread can run if it takes a step, has not ended and is not kept waiting. -/
theorem mem_runnable_iff_step (hroom : s.depth < maxDepth) :
    t ∈ s.runnable p ↔
      (∃ s', p.step s t = .ok s') ∧ s.counters[t]? ≠ some none ∧
        ¬ (s.input = [] ∧ ∃ b, p.current s t = .ok (some b) ∧ b.action.isInput = true) := by
  rw [mem_runnable_iff_current]
  constructor
  · rintro ⟨b, hb, hready⟩
    obtain ⟨i, hi, -⟩ := Program.current_eq_ok_some_iff.1 hb
    refine ⟨⟨_, Program.step_eq_ok hb hroom⟩, by simp [hi], ?_⟩
    rintro ⟨hempty, b', hb', hin⟩
    rw [hb, Except.ok.injEq, Option.some.injEq] at hb'
    subst hb'
    simp [hin, hempty] at hready
  · rintro ⟨⟨s', hs'⟩, hended, hstarved⟩
    cases h : p.current s t with
    | error fault => simp [Program.step, h] at hs'
    | ok block =>
      cases block with
      | none => exact absurd (Program.current_eq_ok_none_iff.1 h).2 hended
      | some b =>
        refine ⟨b, rfl, ?_⟩
        by_contra hwait
        simp only [not_or, Bool.not_eq_false, ne_eq, Decidable.not_not] at hwait
        exact hstarved ⟨hwait.2, b, h, hwait.1⟩

/-- A thread that cannot run takes no step at all, or a step that only counts. -/
theorem step_of_not_mem_runnable {s' : State} (hroom : s.depth < maxDepth)
    (hidle : t ∉ s.runnable p) (hstep : p.step s t = .ok s') :
    (s.counters[t]? = some none ∧ s' = s) ∨
      ((s.input = [] ∧ ∃ b, p.current s t = .ok (some b) ∧ b.action.isInput = true) ∧
        s' = { s with depth := s.depth + 1 }) := by
  rw [mem_runnable_iff_step hroom] at hidle
  by_cases hended : s.counters[t]? = some none
  · cases h : p.current s t with
    | error fault => simp [Program.step, h] at hstep
    | ok block =>
      cases block with
      | none =>
        rw [Program.step_of_ended h, Except.ok.injEq] at hstep
        exact .inl ⟨hended, hstep.symm⟩
      | some b =>
        obtain ⟨i, hi, -⟩ := Program.current_eq_ok_some_iff.1 h
        simp [hi] at hended
  · have hstarved : s.input = [] ∧ ∃ b, p.current s t = .ok (some b) ∧ b.action.isInput = true := by
      by_contra hfed
      exact hidle ⟨⟨s', hstep⟩, hended, hfed⟩
    obtain ⟨hempty, b, hb, hin⟩ := hstarved
    rw [Program.step_eq_ok hb hroom, Except.ok.injEq, fire_of_starved hb hin hempty] at hstep
    exact .inr ⟨⟨hempty, b, hb, hin⟩, hstep.symm⟩

end State

theorem mapM_eq_ok {α β ε : Type} {f : α → Except ε β} {g : α → β} {xs : List α}
    (h : ∀ x ∈ xs, f x = .ok (g x)) : xs.mapM f = .ok (xs.map g) := by
  induction xs with
  | nil => rfl
  | cons x xs ih =>
    have hrest : xs.mapM f = .ok (xs.map g) := ih fun x' hx' => h x' (List.mem_cons_of_mem _ hx')
    rw [List.mapM_cons, h x List.mem_cons_self, hrest]
    rfl

/-- If a function succeeds on every element of a list, the elements can be listed with its
results. -/
theorem exists_mapM_pair_eq_ok {α β ε : Type} {f : α → Except ε β} {xs : List α}
    (h : ∀ x ∈ xs, ∃ y, f x = .ok y) :
    ∃ pairs, (xs.mapM fun x => (f x).map (x, ·)) = .ok pairs ∧ pairs.map Prod.fst = xs ∧
      ∀ pair ∈ pairs, f pair.1 = .ok pair.2 := by
  induction xs with
  | nil => exact ⟨[], rfl, rfl, by simp⟩
  | cons x xs ih =>
    obtain ⟨y, hy⟩ := h x List.mem_cons_self
    obtain ⟨pairs, hpairs, hfst, hall⟩ := ih fun x' hx' => h x' (List.mem_cons_of_mem _ hx')
    refine ⟨(x, y) :: pairs, ?_, by rw [List.map_cons, hfst], ?_⟩
    · rw [List.mapM_cons, hy, hpairs]
      rfl
    · exact List.forall_mem_cons.2 ⟨hy, hall⟩

namespace Snapshot

variable {p : Program} {g g' : Snapshot} {t : ThreadId}

/-- One step of thread `t` from a snapshot: in the state it describes, written down again. -/
def step (p : Program) (g : Snapshot) (t : ThreadId) : Except Fault Snapshot :=
  (p.step g.restore t).map State.snapshot

theorem step_eq_ok_iff :
    g.step p t = .ok g' ↔ ∃ s, p.step g.restore t = .ok s ∧ g' = s.snapshot := by
  rw [step]
  cases p.step g.restore t with
  | error fault => simp [Except.map]
  | ok s => simp [Except.map, eq_comm]

/-- From a snapshot of a state a thread steps as it does in the state. -/
theorem step_snapshot {s : State} {b : Block} (hb : p.current s t = .ok (some b))
    (hroom : s.depth < maxDepth) : s.snapshot.step p t = .ok (s.fire t b).snapshot := by
  refine step_eq_ok_iff.2 ⟨s.fire t b, ?_, rfl⟩
  rw [State.restore_snapshot]
  exact Program.step_eq_ok hb hroom

/-- The snapshot of a state is expanded without fault, into the snapshots of the successors of the
state in their order. -/
theorem successors_snapshot (p : Program) {s : State} (hroom : s.depth < maxDepth) :
    s.snapshot.successors p = .ok ((s.successors p).map fun turn => (turn.1, turn.2.snapshot)) := by
  have hturn : ∀ ready ∈ s.ready p,
      ((p.step s.snapshot.restore ready.1).map fun m => (ready.1, m.snapshot)) =
        .ok (ready.1, (s.fire ready.1 ready.2).snapshot) := by
    rintro ⟨t, b⟩ hb
    rw [State.restore_snapshot, Program.step_eq_ok (State.current_of_mem_ready hb) hroom]
    rfl
  rw [successors, State.runnable_snapshot, State.runnable, List.mapM_map]
  refine (mapM_eq_ok hturn).trans ?_
  rw [State.successors, List.map_map]
  rfl

section Distinct

variable (hdistinct : (g.counters.toList.map Prod.fst).Nodup)

include hdistinct

theorem getElem?_counters_restore {c : Option BlockId} :
    g.restore.counters[t]? = some c ↔ (t, c) ∈ g.counters.toList :=
  getElem?_ofList_eq_some_iff hdistinct

theorem getElem?_counters_restore_eq_none :
    g.restore.counters[t]? = none ↔ ∀ c, (t, c) ∉ g.counters.toList := by
  simp only [Option.eq_none_iff_forall_ne_some, ne_eq, getElem?_counters_restore hdistinct]

theorem runnable_perm (p : Program) : (g.runnable p).Perm (g.restore.runnable p) := by
  have hentries : g.counters.toList.Perm g.restore.counters.toList := by
    rw [List.perm_ext_iff_of_nodup hdistinct.of_map (nodup_map_fst_toList _).of_map]
    rintro ⟨u, c⟩
    rw [Std.ExtTreeMap.mem_toList_iff_getElem?_eq_some, getElem?_counters_restore hdistinct]
  exact (hentries.filterMap _).map _

/-- A thread that is listed as able to run has a block, and runs it. -/
theorem step_of_mem_runnable (hroom : g.depth < maxDepth) (ht : t ∈ g.runnable p) :
    ∃ b, g.step p t = .ok (g.restore.fire t b).snapshot := by
  have hrun : t ∈ g.restore.runnable p := (runnable_perm hdistinct p).mem_iff.1 ht
  obtain ⟨b, hb, -⟩ := State.mem_runnable_iff_current.1 hrun
  exact ⟨b, step_eq_ok_iff.2 ⟨_, Program.step_eq_ok hb hroom, rfl⟩⟩

theorem exists_successors_eq_ok (hroom : g.depth < maxDepth) :
    ∃ turns, g.successors p = .ok turns ∧ turns.map Prod.fst = g.runnable p ∧
      ∀ turn ∈ turns, g.step p turn.1 = .ok turn.2 := by
  have hturn : g.successors p = (g.runnable p).mapM fun t => (g.step p t).map (t, ·) := by
    rw [successors]
    congr 1
    funext t
    rw [step]
    cases p.step g.restore t <;> rfl
  rw [hturn]
  apply exists_mapM_pair_eq_ok
  intro t ht
  obtain ⟨b, hb⟩ := step_of_mem_runnable hdistinct hroom ht
  exact ⟨_, hb⟩

end Distinct

/-- The thread is at an INPUT block and no input is left. -/
def Starved (p : Program) (g : Snapshot) (t : ThreadId) : Prop :=
  g.input = [] ∧
    ∃ i b, (t, some i) ∈ g.counters.toList ∧ p.block? t i = some b ∧ b.action.isInput = true

theorem starved_iff (hdistinct : (g.counters.toList.map Prod.fst).Nodup) :
    g.Starved p t ↔ g.restore.input = [] ∧
      ∃ b, p.current g.restore t = .ok (some b) ∧ b.action.isInput = true := by
  simp only [Starved, Program.current_eq_ok_some_iff, getElem?_counters_restore hdistinct]
  constructor
  · rintro ⟨hempty, i, b, hi, hb, hin⟩
    exact ⟨hempty, b, ⟨i, hi, hb⟩, hin⟩
  · rintro ⟨hempty, b, ⟨i, hi, hb⟩, hin⟩
    exact ⟨hempty, i, b, hi, hb, hin⟩

/-- **What can run and what does run agree.** Let no thread have two entries in a snapshot. A step
of a thread fails exactly if the program has no such thread, there is no entry for it, or its entry
names a block that it does not have. A thread is listed as able to run exactly if its step does not
fail, it has not ended and it is not starved. The step of any other thread, if it does not fail,
changes nothing, or nothing but the count of steps. So no step fails when the snapshot is expanded:
there is one successor for each thread listed, in their order, and it is one step deeper. -/
theorem expansion_agrees (p : Program) (g : Snapshot)
    (hdistinct : (g.counters.toList.map Prod.fst).Nodup) (hroom : g.depth < maxDepth) :
    (∀ t, (∃ fault, p.step g.restore t = .error fault) ↔
      p.thread? t = none ∨ (∀ c, (t, c) ∉ g.counters.toList) ∨
        ∃ i, (t, some i) ∈ g.counters.toList ∧ p.block? t i = none) ∧
    (∀ t, t ∈ g.runnable p ↔
      (∃ s, p.step g.restore t = .ok s) ∧ (t, none) ∉ g.counters.toList ∧ ¬ g.Starved p t) ∧
    (∀ t s, t ∉ g.runnable p → p.step g.restore t = .ok s →
      ((t, none) ∈ g.counters.toList ∧ s = g.restore) ∨
      (g.Starved p t ∧ s = { g.restore with depth := g.depth + 1 })) ∧
    ∃ turns, g.successors p = .ok turns ∧ turns.map Prod.fst = g.runnable p ∧
      ∀ turn ∈ turns, g.step p turn.1 = .ok turn.2 ∧ turn.2.depth = g.depth + 1 := by
  refine ⟨?_, ?_, ?_, ?_⟩
  · intro t
    simp only [Program.step_eq_error_iff (s := g.restore) hroom, Program.current_eq_error_iff,
      getElem?_counters_restore_eq_none hdistinct, getElem?_counters_restore hdistinct]
  · intro t
    rw [(runnable_perm hdistinct p).mem_iff, State.mem_runnable_iff_step hroom,
      ← starved_iff hdistinct, ne_eq, getElem?_counters_restore hdistinct]
  · intro t s hidle hstep
    rw [(runnable_perm hdistinct p).mem_iff] at hidle
    have hcases := State.step_of_not_mem_runnable hroom hidle hstep
    rwa [← starved_iff hdistinct, getElem?_counters_restore hdistinct] at hcases
  · obtain ⟨turns, hturns, hthreads, hall⟩ := exists_successors_eq_ok (p := p) hdistinct hroom
    refine ⟨turns, hturns, hthreads, ?_⟩
    intro turn hturn
    refine ⟨hall turn hturn, ?_⟩
    have hrun : turn.1 ∈ g.runnable p := hthreads ▸ List.mem_map_of_mem hturn
    obtain ⟨b, hb⟩ := step_of_mem_runnable hdistinct hroom hrun
    rw [hall turn hturn, Except.ok.injEq] at hb
    rw [hb]
    rfl

theorem scrambled_expands :
    (Demo.scrambled.counters.toList.map Prod.fst).Nodup ∧ Demo.scrambled.depth < maxDepth ∧
    (∃ fault, Demo.Scenario.reader.posed.program.step Demo.scrambled.restore ⟨7⟩ = .error fault) ∧
    ⟨1⟩ ∉ Demo.scrambled.runnable Demo.Scenario.reader.posed.program ∧
    ∃ turns, Demo.scrambled.successors Demo.Scenario.reader.posed.program = .ok turns ∧
      turns.map Prod.fst = [⟨2⟩] ∧ ∀ turn ∈ turns, turn.2.depth = 4 := by
  have hdistinct : (Demo.scrambled.counters.toList.map Prod.fst).Nodup := by decide +kernel
  have hroom : Demo.scrambled.depth < maxDepth := by decide
  have hrun : Demo.scrambled.runnable Demo.Scenario.reader.posed.program = [⟨2⟩] := by
    decide +kernel
  obtain ⟨hfault, -, -, turns, hturns, hthreads, hall⟩ :=
    expansion_agrees Demo.Scenario.reader.posed.program Demo.scrambled hdistinct hroom
  refine ⟨hdistinct, hroom, (hfault ⟨7⟩).2 (.inl (by decide +kernel)), by simp [hrun], turns, hturns,
    hthreads.trans hrun, ?_⟩
  intro turn hturn
  exact (hall turn hturn).2

-- With two entries for a thread, the first may look ready while the last is in force.
example : ({ Demo.scrambled with counters := #[(⟨2⟩, some ⟨1⟩), (⟨2⟩, some ⟨9⟩)] }).successors
    Demo.Scenario.reader.posed.program = .error (.missingBlock ⟨2⟩ ⟨9⟩) := by
  decide +kernel

end Snapshot

end Flowchart
