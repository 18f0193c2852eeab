import Flowchart.Demo.Scenario
import Flowchart.Program.Defect
import Flowchart.Proofs.Canonical
import Flowchart.Proofs.Step
import Flowchart.Proofs.Verdict

/-!
# Programs without findings

A program in which nothing is found to be wrong cannot fail, whatever its input and under every
schedule. The counters of a state are those of the threads, each names a block of its thread or says
that the thread has ended, and the variables are the declared ones. These facts hold at the
beginning and are kept by every step, and no look-up of the interpreter fails where they hold. A
thread that is neither able to run nor at its end waits for input.

* `Program.Sound`: what execution relies on in a program.
* `State.Fits`: what it relies on in a state, kept by every step of a sound program.
* `Problem.no_findings_safe`: the main result.
-/

namespace Flowchart

/-- The reader without anything to read. -/
def Demo.starved : Problem :=
  { Demo.Scenario.reader.posed with input := [] }

/-- What execution relies on: every thread has an entry, and its blocks mention declared variables
and lead to blocks of the thread. -/
structure Program.Sound (p : Program) : Prop where
  entry : ∀ t ∈ p.threadList, ∃ i, t.start? = some i
  declared : ∀ t ∈ p.threadList, ∀ b ∈ t.blocks, ∀ name ∈ b.action.names, name ∈ p.declared
  target : ∀ t ∈ p.threadList, ∀ b ∈ t.blocks, ∀ i ∈ b.action.targets, i ∈ t.nodes

/-! ### What the absence of findings says -/

theorem startsAt_iff {nodes : Std.ExtTreeMap BlockId Action} {i : BlockId} :
    startsAt nodes i = true ↔ ∃ next : BlockId, nodes[i]? = some (Action.start next) := by
  rw [startsAt, Option.any_eq_true]
  constructor
  · rintro ⟨a, ha, hstart⟩
    cases a with
    | start next => exact ⟨next, ha⟩
    | _ => cases hstart
  · rintro ⟨next, hnext⟩
    exact ⟨.start next, hnext, rfl⟩

namespace Thread

variable {p : Program} {t : Thread} {a : Action} {name : String} {i : BlockId}

theorem exists_start_of_ownDefects (h : t.ownDefects = []) : ∃ i, t.start? = some i := by
  have hcount : t.startCount = 1 := by
    rw [ownDefects] at h
    split at h
    · cases h
    · simp only [List.append_eq_nil_iff] at h
      simpa using h.1.2
  have hpos : 0 < t.blocks.countP (·.action.isStart) := by
    rw [← startCount, hcount]
    exact Nat.one_pos
  obtain ⟨b, hb, hstart⟩ := List.countP_pos_iff.1 hpos
  have hstarts : startsAt t.nodes b.id = true := by
    simpa [startsAt, mem_blocks.1 hb] using hstart
  exact ⟨b.id, start?_eq_some_iff.2 hstarts⟩

theorem declared_of_actionDefects (h : t.actionDefects p a = []) (hname : name ∈ a.names) :
    name ∈ p.declared := by
  by_contra hno
  have hmem : Defect.undeclared name ∈ t.actionDefects p a := by
    simp [actionDefects, Program.declares, hname, hno]
  simp [h] at hmem

theorem mem_nodes_of_actionDefects (h : t.actionDefects p a = []) (hi : i ∈ a.targets) :
    i ∈ t.nodes := by
  by_contra hno
  rw [← Action.map_snd_exits, List.mem_map] at hi
  obtain ⟨exit, hexit, rfl⟩ := hi
  have hmem : Defect.dangling exit.1 exit.2 ∈ t.actionDefects p a := by
    refine List.mem_append_right _ (List.mem_map.2 ⟨exit, ?_, rfl⟩)
    simp [hexit, hno]
  simp [h] at hmem

end Thread

theorem Program.sound_of_findings {p : Program} (h : p.findings = []) : p.Sound := by
  have hthread : ∀ t ∈ p.threadList, t.findings p = [] := by
    simp only [findings, List.append_eq_nil_iff, List.flatMap_eq_nil_iff] at h
    exact h.2
  have haction : ∀ t ∈ p.threadList, ∀ b ∈ t.blocks, t.actionDefects p b.action = [] := by
    intro t ht b hb
    have hf := hthread t ht
    simp only [Thread.findings, List.append_eq_nil_iff, List.flatMap_eq_nil_iff,
      List.map_eq_nil_iff] at hf
    exact hf.2 b hb
  refine ⟨?_, ?_, ?_⟩
  · intro t ht
    have hf := hthread t ht
    simp only [Thread.findings, List.append_eq_nil_iff, List.map_eq_nil_iff] at hf
    exact Thread.exists_start_of_ownDefects hf.1
  · intro t ht b hb name hname
    exact Thread.declared_of_actionDefects (haction t ht b hb) hname
  · intro t ht b hb i hi
    exact Thread.mem_nodes_of_actionDefects (haction t ht b hb) hi

/-! ### Counters -/

namespace State

variable {p : Program} {s : State} {t u : ThreadId} {b : Block}

/-- A step of a thread with a counter neither adds a counter nor removes one. -/
theorem mem_counters_fire (hb : p.current s t = .ok (some b)) :
    u ∈ (s.fire t b).counters ↔ u ∈ s.counters := by
  obtain ⟨i, hi, -⟩ := Program.current_eq_ok_some_iff.1 hb
  have hknown : t ∈ s.counters := by
    rw [Std.ExtTreeMap.mem_iff_isSome_getElem?, hi]
    rfl
  simp only [fire, Std.ExtTreeMap.mem_insert, Std.compare_eq_iff_eq]
  constructor
  · rintro (rfl | hu)
    · exact hknown
    · exact hu
  · exact .inr

/-- Counters for the same threads are listed in the same order. -/
theorem keys_counters_eq (h : ∀ t, t ∈ s.counters ↔ t ∈ p.threadIds) :
    s.counters.keys = p.threadIds :=
  keys_eq_of_mem_iff fun t => (h t).trans Std.ExtTreeMap.mem_keys

end State

/-! ### States that fit a program -/

/-- The state has a counter for every thread of the program and for no other, every counter that is
set names a block, and the variables are the declared ones. -/
structure State.Fits (p : Program) (s : State) : Prop where
  thread : ∀ t, t ∈ s.counters ↔ t ∈ p.threadIds
  block : ∀ t i, s.counters[t]? = some (some i) → ∃ b, p.block? t i = some b
  name : ∀ name, name ∈ s.store ↔ name ∈ p.declared

namespace Problem

variable {q : Problem} {t : Thread} {s : State} {w : List ThreadId}

theorem map_fst_initial_counters (p : Program) :
    (p.threadList.map fun t => (t.id, t.start?)).map Prod.fst = p.threadIds := by
  rw [List.map_map, ← p.map_id_threadList]
  rfl

theorem counters_initial (ht : t ∈ q.program.threadList) :
    q.initial.counters[t.id]? = some t.start? := by
  refine (getElem?_ofList_eq_some_iff ?_).2 (List.mem_map.2 ⟨t, ht, rfl⟩)
  rw [map_fst_initial_counters]
  exact Std.ExtTreeMap.nodup_keys

theorem mem_counters_initial {i : ThreadId} :
    i ∈ q.initial.counters ↔ i ∈ q.program.threadIds := by
  rw [initial, Std.ExtTreeMap.mem_ofList, map_fst_initial_counters, List.contains_iff_mem]

theorem mem_store_initial {name : String} :
    name ∈ q.initial.store ↔ name ∈ q.program.declared := by
  simp [initial, Std.ExtTreeMap.mem_ofList]

theorem getElem?_store_initial (q : Problem) (name : String) :
    q.initial.store[name]? = if name ∈ q.program.declared then some 0 else none := by
  split
  · next hname =>
    refine (getElem?_ofList_eq_some_iff ?_).2 (List.mem_map.2 ⟨name, hname, rfl⟩)
    simpa [Function.comp_def] using q.program.declared_nodup
  · next hname =>
    rw [← mem_store_initial, Std.ExtTreeMap.mem_iff_isSome_getElem?] at hname
    simpa using hname

theorem fits_initial (q : Problem) : q.initial.Fits q.program := by
  refine ⟨fun _ => mem_counters_initial, ?_, fun _ => mem_store_initial⟩
  intro i j hj
  have hi : i ∈ q.program.threadIds := by
    rw [← mem_counters_initial, Std.ExtTreeMap.mem_iff_isSome_getElem?, hj]
    rfl
  rw [← q.program.map_id_threadList, List.mem_map] at hi
  obtain ⟨t, ht, rfl⟩ := hi
  rw [counters_initial ht, Option.some.injEq] at hj
  -- The counter is the entry of the thread, which is one of its blocks.
  obtain ⟨next, hnext⟩ := startsAt_iff.1 (Thread.start?_eq_some_iff.1 hj)
  exact ⟨⟨j, .start next⟩, Program.block?_eq_some_iff.2
    ⟨t, ht, rfl, Thread.mem_blocks.2 hnext, rfl⟩⟩

end Problem

namespace State.Fits

variable {p : Program} {s : State} {t : ThreadId} {b : Block}

/-- A step of a sound program leads to a state that fits it. -/
theorem fire (hp : p.Sound) (hs : s.Fits p) (hb : p.current s t = .ok (some b)) :
    (s.fire t b).Fits p := by
  obtain ⟨here, -, hblock⟩ := Program.current_eq_ok_some_iff.1 hb
  obtain ⟨thread, hthread, rfl, hmem, rfl⟩ := Program.block?_eq_some_iff.1 hblock
  refine ⟨?_, ?_, ?_⟩
  · intro u
    rw [mem_counters_fire hb, hs.thread]
  · intro u i hi
    rw [getElem?_counters_fire] at hi
    split at hi
    · next heq =>
      subst heq
      rw [Option.some.injEq] at hi
      rcases Action.mem_targets_of_next? hi with htarget | rfl
      · have hnode := hp.target thread hthread b hmem i htarget
        rw [Std.ExtTreeMap.mem_iff_isSome_getElem?, Option.isSome_iff_exists] at hnode
        obtain ⟨a, ha⟩ := hnode
        exact ⟨⟨i, a⟩, Program.block?_eq_some_iff.2
          ⟨thread, hthread, rfl, Thread.mem_blocks.2 ha, rfl⟩⟩
      · exact ⟨b, hblock⟩
    · exact hs.block u i hi
  · intro name
    rw [← hs.name name, store_fire]
    cases hchange : b.action.change? s with
    | none => rfl
    | some c =>
      -- The variable that is written is declared, so the store has it already.
      have hnames := Action.mem_names_of_written? (Action.written?_of_change? hchange)
      have hold := (hs.name c.1).2 (hp.declared thread hthread b hmem c.1 hnames)
      simp only [Option.elim_some, Std.ExtTreeMap.mem_insert, Std.compare_eq_iff_eq]
      constructor
      · rintro (rfl | hname)
        · exact hold
        · exact hname
      · exact .inr

theorem of_leads {q : Problem} {w : List ThreadId} (hp : q.program.Sound) (hw : q.Leads w s) :
    s.Fits q.program := by
  induction hw with
  | nil => exact q.fits_initial
  | snoc _ _ hb ih => exact ih.fire hp hb

theorem keys_counters (hs : s.Fits p) : s.counters.keys = p.threadIds :=
  State.keys_counters_eq hs.thread

theorem keys_store (hs : s.Fits p) : s.store.keys.Perm p.declared := by
  rw [List.perm_ext_iff_of_nodup Std.ExtTreeMap.nodup_keys p.declared_nodup]
  intro name
  rw [Std.ExtTreeMap.mem_keys, hs.name]

/-- No look-up of the interpreter fails. -/
theorem current_eq_ok (hs : s.Fits p) (ht : t ∈ p.threadIds) : ∃ b, p.current s t = .ok b := by
  have hcounter := (hs.thread t).2 ht
  rw [Std.ExtTreeMap.mem_iff_isSome_getElem?, Option.isSome_iff_exists] at hcounter
  obtain ⟨counter, hcounter⟩ := hcounter
  cases counter with
  | none =>
    rw [← p.map_id_threadList, List.mem_map] at ht
    obtain ⟨thread, hthread, rfl⟩ := ht
    exact ⟨none, by simp [Program.current, Program.mem_threadList.1 hthread, hcounter]⟩
  | some i =>
    obtain ⟨b, hb⟩ := hs.block t i hcounter
    exact ⟨some b, Program.current_eq_ok_some_iff.2 ⟨i, hcounter, hb⟩⟩

/-- A thread that can neither run nor has ended is at an INPUT block, and there is no input. -/
theorem waits (hs : s.Fits p) (hstuck : t ∉ s.runnable p) {i : BlockId}
    (hi : s.counters[t]? = some (some i)) :
    s.input = [] ∧ ∃ b, p.block? t i = some b ∧ b.action.isInput = true := by
  obtain ⟨b, hb⟩ := hs.block t i hi
  have hready : ¬ (b.action.isInput = false ∨ s.input ≠ []) := by
    intro hwait
    have hcurrent := Program.current_eq_ok_some_iff.2 ⟨i, hi, hb⟩
    exact hstuck (mem_runnable_iff_current.2 ⟨b, hcurrent, hwait⟩)
  rw [not_or, not_not, Bool.not_eq_false] at hready
  exact ⟨hready.2, b, hb, hready.1⟩

theorem isComplete_or_waits (hs : s.Fits p) (hstuck : s.runnable p = []) :
    s.isComplete = true ∨ (s.input = [] ∧ ∀ t i, s.counters[t]? = some (some i) →
      ∃ b, p.block? t i = some b ∧ b.action.isInput = true) := by
  have hwaits {t : ThreadId} {i : BlockId} (hi : s.counters[t]? = some (some i)) :=
    hs.waits (by simp [hstuck]) hi
  by_cases hcomplete : s.isComplete = true
  · exact .inl hcomplete
  · rw [isComplete_iff] at hcomplete
    push Not at hcomplete
    obtain ⟨t, counter, hcounter, hne⟩ := hcomplete
    obtain ⟨i, rfl⟩ := Option.ne_none_iff_exists'.1 hne
    exact .inr ⟨(hwaits hcounter).1, fun u j hj => (hwaits hj).2⟩

end State.Fits

namespace Problem

/-- **A program without findings cannot go wrong.** Its threads begin at their only entries. In
every state that a valid schedule leads to, the counters are those of the threads in ascending order
and name blocks that exist, the variables are the declared ones in ascending order, and no thread of
the program fails to step, unless it is for want of room to count the step. If no thread can run,
all have ended, or the input is used up and those that have not ended are at INPUT blocks. -/
theorem no_findings_safe (q : Problem) (h : q.program.findings = []) :
    (∀ t ∈ q.program.threadList, ∃ i next,
      q.initial.counters[t.id]? = some (some i) ∧ t.nodes[i]? = some (.start next) ∧
      ∀ j next', t.nodes[j]? = some (.start next') → j = i) ∧
    ∀ w s, q.Leads w s →
      (s.snapshot.counters.toList.map Prod.fst = q.program.threadIds ∧
        q.program.threadIds.Pairwise (· < ·)) ∧
      (∀ t i, s.counters[t]? = some (some i) → ∃ b, q.program.block? t i = some b) ∧
      ((s.snapshot.store.toList.map Prod.fst).Perm q.program.declared ∧
        (s.snapshot.store.toList.map Prod.fst).Pairwise (· < ·)) ∧
      (∀ t ∈ q.program.threadIds,
        (∃ b, q.program.current s.snapshot.restore t = .ok b) ∧
        (s.depth < maxDepth → ∃ s', q.program.step s.snapshot.restore t = .ok s')) ∧
      (s.runnable q.program = [] → s.isComplete = true ∨
        (s.input = [] ∧ ∀ t i, s.counters[t]? = some (some i) →
          ∃ b, q.program.block? t i = some b ∧ b.action.isInput = true)) := by
  have hp := Program.sound_of_findings h
  refine ⟨?_, ?_⟩
  · intro t ht
    obtain ⟨i, hi⟩ := hp.entry t ht
    have hstarts := Thread.start?_eq_some_iff.1 hi
    obtain ⟨next, hnext⟩ := startsAt_iff.1 hstarts
    refine ⟨i, next, (counters_initial ht).trans (congrArg some hi), hnext, ?_⟩
    intro j next' hj
    exact t.start_unique j i (startsAt_iff.2 ⟨next', hj⟩) hstarts
  · intro w s hw
    have hs := State.Fits.of_leads hp hw
    have hcounters : s.snapshot.counters.toList.map Prod.fst = s.counters.keys :=
      Std.ExtTreeMap.map_fst_toList_eq_keys
    have hstore : s.snapshot.store.toList.map Prod.fst = s.store.keys :=
      Std.ExtTreeMap.map_fst_toList_eq_keys
    rw [hcounters, hstore, State.restore_snapshot]
    refine ⟨⟨hs.keys_counters, ?_⟩, hs.block, ⟨hs.keys_store, ?_⟩, ?_, hs.isComplete_or_waits⟩
    · exact Std.ExtTreeMap.ordered_keys.imp ThreadId.compare_eq_lt_iff.1
    · exact s.store.ordered_keys.imp fun hlt => compareOfLessAndEq_eq_lt.1 hlt
    · intro t ht
      obtain ⟨b, hb⟩ := hs.current_eq_ok ht
      refine ⟨⟨b, hb⟩, ?_⟩
      intro hroom
      cases b with
      | none => exact ⟨s, by simp only [Program.step, hb]⟩
      | some block => exact ⟨_, Program.step_eq_ok hb hroom⟩

theorem starved_waits :
    Demo.starved.program.findings = [] ∧
    ∃ s, Demo.starved.Leads [⟨1⟩, ⟨2⟩, ⟨2⟩, ⟨2⟩, ⟨2⟩] s ∧
      s.snapshot.counters.toList.map Prod.fst = [⟨1⟩, ⟨2⟩] ∧
      s.counters[(⟨1⟩ : ThreadId)]? = some (some ⟨1⟩) ∧
      ∃ b, Demo.starved.program.block? ⟨1⟩ ⟨1⟩ = some b ∧ b.action.isInput = true := by
  have hfindings : Demo.starved.program.findings = [] := by decide +kernel
  have hthreads : Demo.starved.program.threadIds = [⟨1⟩, ⟨2⟩] := by decide +kernel
  have hafter : (Demo.starved.after? [⟨1⟩, ⟨2⟩, ⟨2⟩, ⟨2⟩, ⟨2⟩]).map (fun s =>
      (s.runnable Demo.starved.program, s.isComplete, s.counters[(⟨1⟩ : ThreadId)]?)) =
      some ([], false, some (some ⟨1⟩)) := by
    decide +kernel
  obtain ⟨s, hs, hstate⟩ := Option.map_eq_some_iff.1 hafter
  simp only [Prod.mk.injEq] at hstate
  obtain ⟨hstuck, hcomplete, hcounter⟩ := hstate
  have hleads : Demo.starved.Leads [⟨1⟩, ⟨2⟩, ⟨2⟩, ⟨2⟩, ⟨2⟩] s := Program.leads_iff_replay?.2 hs
  obtain ⟨-, hsafe⟩ := no_findings_safe Demo.starved hfindings
  obtain ⟨⟨hkeys, -⟩, -, -, -, hwaits⟩ := hsafe _ s hleads
  refine ⟨hfindings, s, hleads, hkeys.trans hthreads, hcounter, ?_⟩
  rcases hwaits hstuck with hdone | ⟨-, hinput⟩
  · rw [hcomplete] at hdone
    cases hdone
  · exact hinput _ _ hcounter

end Problem

end Flowchart
