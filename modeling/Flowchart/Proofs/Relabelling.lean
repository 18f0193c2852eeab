import Flowchart.Proofs.ControlFlow
import Flowchart.Proofs.Coverage
import Flowchart.Proofs.Map
import Mathlib.Data.List.Dedup

/-!
# Other numbers and names

Threads and blocks are known by numbers and variables by names. Let all of them be exchanged for
others, so that those that occur in the program and differ go on to differ. States are then stored
in another order, and threads are scheduled in another order, but every turn of the one program is a
turn of the other. Exploration takes threads in ascending order of their numbers, so it goes the
same way only if that order is kept.

## Main definitions

* `Relabelling`, `Relabelling.Faithful`: other numbers and names, and that they keep apart what
  differs.
* `Program.relabel`, `State.relabel`: programs and states under them.

## Main results

* `State.Within.fire_relabel`: a step of the program is a step of the relabelled one.
* `State.Within.successors_relabel_perm`: the turns are the same up to order.
* `Problem.labels_immaterial`: what exploration says about the two.
-/

namespace Flowchart

/-! ### Programs -/

/-- Other numbers for the threads and the blocks of each thread, and other names for the
variables. -/
structure Relabelling where
  thread : ThreadId → ThreadId
  block : ThreadId → BlockId → BlockId
  var : String → String

/-- The block numbers that occur in a thread, whether or not there is a block at each of them. -/
def Thread.numbers (t : Thread) : List BlockId :=
  t.blocks.flatMap fun b => b.id :: b.action.targets

/-- The variables that occur in a program, declared or not. -/
def Program.vocabulary (p : Program) : List String :=
  p.declared ++ p.threadList.flatMap fun t => t.blocks.flatMap (·.action.names)

/-- What differs in the program goes on to differ. -/
structure Relabelling.Faithful (ρ : Relabelling) (p : Program) : Prop where
  thread : Set.InjOn ρ.thread {i | i ∈ p.threadIds}
  block : ∀ t ∈ p.threadList, Set.InjOn (ρ.block t.id) {i | i ∈ t.numbers}
  var : Set.InjOn ρ.var {name | name ∈ p.vocabulary}

/-- The threads of the program keep their order. -/
def Relabelling.KeepsOrder (ρ : Relabelling) (p : Program) : Prop :=
  ∀ i ∈ p.threadIds, ∀ j ∈ p.threadIds, i < j → ρ.thread i < ρ.thread j

/-- Larger numbers in the same order, and names with a mark. -/
def Demo.shift : Relabelling where
  thread i := ⟨i.val + 10⟩
  block i j := ⟨2 * j.val + i.val⟩
  var name := name ++ "*"

def Operand.relabel (var : String → String) : Operand → Operand
  | literal n => literal n
  | copy source => copy (var source)

def Action.relabel (block : BlockId → BlockId) (var : String → String) : Action → Action
  | start next => start (block next)
  | finish => finish
  | assign target operand next => assign (var target) (operand.relabel var) (block next)
  | input name next => input (var name) (block next)
  | print name next => print (var name) (block next)
  | branch condition onTrue onFalse =>
    branch { condition with var := var condition.var } (block onTrue) (block onFalse)

/-- A block of the thread numbered `t`. -/
def Block.relabel (ρ : Relabelling) (t : ThreadId) (b : Block) : Block :=
  ⟨ρ.block t b.id, b.action.relabel (ρ.block t) ρ.var⟩

@[simp]
theorem Action.isStart_relabel (a : Action) (block : BlockId → BlockId) (var : String → String) :
    (a.relabel block var).isStart = a.isStart := by
  cases a <;> rfl

@[simp]
theorem Action.isInput_relabel (a : Action) (block : BlockId → BlockId) (var : String → String) :
    (a.relabel block var).isInput = a.isInput := by
  cases a <;> rfl

/-- An entry of the relabelled flowchart is the image of an entry. -/
theorem exists_startsAt_of_rekey {nodes : Std.ExtTreeMap BlockId Action} {i : BlockId}
    {block : BlockId → BlockId} {var : String → String}
    (h : startsAt (rekey block (fun _ (a : Action) => a.relabel block var) nodes) i = true) :
    ∃ j, startsAt nodes j = true ∧ block j = i := by
  rw [startsAt, Option.any_eq_true] at h
  obtain ⟨a, ha, hstart⟩ := h
  obtain ⟨j, b, hb, rfl, rfl⟩ := exists_of_getElem?_rekey ha
  rw [Action.isStart_relabel] at hstart
  exact ⟨j, by rw [startsAt, hb, Option.any_some, hstart], rfl⟩

-- Threads and programs are well formed under every relabelling, faithful or not.
def Thread.relabel (ρ : Relabelling) (t : Thread) : Thread where
  id := ρ.thread t.id
  name := t.name
  nodes := rekey (ρ.block t.id) (fun _ a => a.relabel (ρ.block t.id) ρ.var) t.nodes
  start_unique i j hi hj := by
    obtain ⟨i', hi', rfl⟩ := exists_startsAt_of_rekey hi
    obtain ⟨j', hj', rfl⟩ := exists_startsAt_of_rekey hj
    rw [t.start_unique i' j' hi' hj']

def Program.relabel (ρ : Relabelling) (p : Program) : Program where
  name := p.name
  threads := rekey ρ.thread (fun _ t => t.relabel ρ) p.threads
  declared := (p.declared.map ρ.var).dedup
  filed i t ht := by
    obtain ⟨j, u, hu, rfl, rfl⟩ := exists_of_getElem?_rekey ht
    exact congrArg ρ.thread (p.filed j u hu)
  declared_nodup := List.nodup_dedup _

namespace Thread

variable {ρ : Relabelling} {t : Thread} {i : BlockId} {b : Block}

theorem mem_numbers_of_mem_nodes (h : i ∈ t.nodes) : i ∈ t.numbers := by
  rw [Std.ExtTreeMap.mem_iff_isSome_getElem?, Option.isSome_iff_exists] at h
  obtain ⟨a, ha⟩ := h
  exact List.mem_flatMap.2 ⟨⟨i, a⟩, mem_blocks.2 ha, List.mem_cons_self⟩

theorem mem_numbers_of_start? (h : t.start? = some i) : i ∈ t.numbers := by
  obtain ⟨next, hnext⟩ := startsAt_iff.1 (start?_eq_some_iff.1 h)
  exact mem_numbers_of_mem_nodes (mem_of_getElem?_eq_some hnext)

theorem mem_numbers_of_target (hb : b ∈ t.blocks) (hi : i ∈ b.action.targets) : i ∈ t.numbers :=
  List.mem_flatMap.2 ⟨b, hb, List.mem_cons_of_mem _ hi⟩

variable (hρ : Set.InjOn (ρ.block t.id) {i | i ∈ t.numbers})

include hρ

theorem block?_relabel (hi : i ∈ t.numbers) :
    (t.relabel ρ).block? (ρ.block t.id i) = (t.block? i).map (Block.relabel ρ t.id) := by
  rw [block?, block?, relabel, getElem?_rekey hρ (fun _ => mem_numbers_of_mem_nodes) hi,
    Option.map_map, Option.map_map]
  rfl

theorem start?_relabel : (t.relabel ρ).start? = t.start?.map (ρ.block t.id) := by
  apply Option.ext
  intro j
  rw [start?_eq_some_iff, Option.map_eq_some_iff]
  constructor
  · intro hj
    obtain ⟨i, hi, rfl⟩ := exists_startsAt_of_rekey hj
    exact ⟨i, start?_eq_some_iff.2 hi, rfl⟩
  · rintro ⟨i, hi, rfl⟩
    have hstart := start?_eq_some_iff.1 hi
    rw [startsAt] at hstart
    rw [startsAt, relabel, getElem?_rekey hρ (fun _ => mem_numbers_of_mem_nodes)
      (mem_numbers_of_start? hi), Option.any_map]
    simpa only [Function.comp_def, Action.isStart_relabel] using hstart

end Thread

namespace Program

variable {ρ : Relabelling} {p : Program} {i : ThreadId} {j : BlockId} {t : Thread} {b : Block}

theorem mem_vocabulary_of_block {name : String} (ht : t ∈ p.threadList) (hb : b ∈ t.blocks)
    (hname : name ∈ b.action.names) : name ∈ p.vocabulary :=
  List.mem_append_right _ (List.mem_flatMap.2 ⟨t, ht, List.mem_flatMap.2 ⟨b, hb, hname⟩⟩)

theorem declared_relabel (hρ : ρ.Faithful p) : (p.relabel ρ).declared = p.declared.map ρ.var := by
  refine List.dedup_eq_self.2 (p.declared_nodup.map_on ?_)
  intro x hx y hy
  exact hρ.var (List.mem_append_left _ hx) (List.mem_append_left _ hy)

theorem thread?_relabel (hρ : ρ.Faithful p) (ht : p.thread? i = some t) :
    (p.relabel ρ).thread? (ρ.thread i) = some (t.relabel ρ) :=
  getElem?_rekey_of_eq_some hρ.thread (fun _ => Std.ExtTreeMap.mem_keys.2) ht

theorem mem_threadList_relabel_iff {u : Thread} (hρ : ρ.Faithful p) :
    u ∈ (p.relabel ρ).threadList ↔ ∃ t ∈ p.threadList, t.relabel ρ = u := by
  constructor
  · intro hu
    obtain ⟨i, t, ht, -, htu⟩ := exists_of_getElem?_rekey (mem_threadList.1 hu)
    obtain rfl := p.filed i t ht
    exact ⟨t, mem_threadList.2 ht, htu⟩
  · rintro ⟨t, ht, rfl⟩
    exact mem_threadList.2 (thread?_relabel hρ (mem_threadList.1 ht))

theorem block?_relabel (hρ : ρ.Faithful p) (ht : p.thread? i = some t) (hj : j ∈ t.numbers) :
    (p.relabel ρ).block? (ρ.thread i) (ρ.block i j) = (p.block? i j).map (Block.relabel ρ i) := by
  obtain rfl := p.filed i t ht
  rw [block?, block?, thread?_relabel hρ ht, ht]
  exact Thread.block?_relabel (hρ.block t (mem_threadList.2 ht)) hj

theorem ready?_relabel {counter : Option BlockId} (hρ : ρ.Faithful p) (ht : p.thread? i = some t)
    (hcounter : ∀ j, counter = some j → j ∈ t.numbers) (input : List Int64) :
    (p.relabel ρ).ready? input (ρ.thread i) (counter.map (ρ.block i)) =
      (p.ready? input i counter).map (Block.relabel ρ i) := by
  cases counter with
  | none => rfl
  | some j =>
    rw [ready?, ready?, Option.map_some, Option.bind_some, Option.bind_some,
      block?_relabel hρ ht (hcounter j rfl)]
    cases p.block? i j with
    | none => rfl
    | some b =>
      rw [Option.map_some, Option.filter_some, Option.filter_some, apply_ite (Option.map _)]
      simp only [Block.relabel, Action.isInput_relabel]
      rfl

end Program

/-! ### States -/

def State.relabel (ρ : Relabelling) (s : State) : State :=
  { s with
    counters := rekey ρ.thread (fun i counter => counter.map (ρ.block i)) s.counters
    store := rekey ρ.var (fun _ v => v) s.store }

/-- All numbers and names in the state occur in the program. -/
structure State.Within (p : Program) (s : State) : Prop where
  thread : ∀ i ∈ s.counters, i ∈ p.threadIds
  block : ∀ i t j, p.thread? i = some t → s.counters[i]? = some (some j) → j ∈ t.numbers
  name : ∀ name ∈ s.store, name ∈ p.vocabulary

namespace Action

variable {a : Action} {s s' : State} {block : BlockId → BlockId} {var : String → String}
  (hget : ∀ name ∈ a.names, s'.get (var name) = s.get name) (hinput : s'.input = s.input)

include hget

theorem printed_relabel : (a.relabel block var).printed s' = a.printed s := by
  cases a with
  | print name next => simp [relabel, printed, hget name (by simp [names])]
  | _ => rfl

include hinput

theorem change?_relabel :
    (a.relabel block var).change? s' = (a.change? s).map fun c => (var c.1, c.2) := by
  cases a with
  | assign target operand next =>
    cases operand with
    | literal n => rfl
    | copy source =>
      simp [relabel, Operand.relabel, change?, Operand.value,
        hget source (by simp [names, Operand.names])]
  | input name next =>
    simp only [relabel, change?, hinput, Option.map_map]
    rfl
  | _ => rfl

theorem next?_relabel (here : BlockId) :
    (a.relabel block var).next? s' (block here) = (a.next? s here).map block := by
  cases a with
  | input name next => simp only [relabel, next?, hinput, Option.map_some, apply_ite block]
  | branch condition onTrue onFalse =>
    have hholds : { condition with var := var condition.var : Condition }.holds
        (s'.get (var condition.var)) = condition.holds (s.get condition.var) := by
      rw [hget condition.var (by simp [names])]
      rfl
    simp only [relabel, next?, hholds, Option.map_some, apply_ite block]
  | _ => rfl

end Action

namespace State

variable {ρ : Relabelling} {p : Program} {s n : State} {t : ThreadId} {b : Block} {name : String}

namespace Within

theorem fire (h : s.Within p) (hb : (t, b) ∈ s.ready p) : (s.fire t b).Within p := by
  obtain ⟨thread, hthread, rfl, hblock⟩ := exists_thread_of_mem_ready hb
  have hlook := Program.mem_threadList.1 hthread
  refine ⟨?_, ?_, ?_⟩
  · intro i hi
    rw [mem_counters_fire (current_of_mem_ready hb)] at hi
    exact h.thread i hi
  · intro i u j hu hj
    rw [getElem?_counters_fire] at hj
    split at hj
    · next heq =>
      subst heq
      obtain rfl := Option.some.inj (hlook.symm.trans hu)
      rcases Action.mem_targets_of_next? (Option.some.inj hj) with htarget | rfl
      · exact Thread.mem_numbers_of_target hblock htarget
      · exact Thread.mem_numbers_of_mem_nodes (mem_of_getElem?_eq_some (Thread.mem_blocks.1 hblock))
    · exact h.block i u j hu hj
  · intro name hname
    rw [store_fire] at hname
    cases hchange : b.action.change? s with
    | none =>
      rw [hchange] at hname
      exact h.name name hname
    | some c =>
      rw [hchange, Option.elim_some] at hname
      rcases Std.ExtTreeMap.mem_insert.1 hname with heq | hname
      · rw [← Std.LawfulEqOrd.eq_of_compare heq]
        exact Program.mem_vocabulary_of_block hthread hblock
          (Action.mem_names_of_written? (Action.written?_of_change? hchange))
      · exact h.name name hname

theorem successor (h : s.Within p) (hturn : (t, n) ∈ s.successors p) : n.Within p := by
  obtain ⟨b, hb, rfl⟩ := exists_ready_of_mem_successors hturn
  exact h.fire hb

variable (hρ : ρ.Faithful p) (h : s.Within p)

include hρ h

theorem getElem?_counters_relabel_iff {i : ThreadId} {c : Option BlockId} :
    (s.relabel ρ).counters[i]? = some c ↔
      ∃ t d, s.counters[t]? = some d ∧ ρ.thread t = i ∧ d.map (ρ.block t) = c :=
  getElem?_rekey_eq_some_iff hρ.thread h.thread

theorem get_relabel (hname : name ∈ p.vocabulary) :
    (s.relabel ρ).get (ρ.var name) = s.get name := by
  rw [get, get, Std.ExtTreeMap.getD_eq_getD_getElem?, Std.ExtTreeMap.getD_eq_getD_getElem?, relabel,
    getElem?_rekey hρ.var h.name hname, Option.map_id']

theorem isComplete_relabel : (s.relabel ρ).isComplete = s.isComplete := by
  rw [Bool.eq_iff_iff, isComplete_iff, isComplete_iff]
  constructor
  · intro hall t c hc
    have := hall _ _ ((getElem?_counters_relabel_iff hρ h).2 ⟨t, c, hc, rfl, rfl⟩)
    simpa using this
  · intro hall i c hc
    obtain ⟨t, d, hd, rfl, rfl⟩ := (getElem?_counters_relabel_iff hρ h).1 hc
    rw [hall t d hd]
    rfl

/-- A step under other numbers and names is the step. -/
theorem fire_relabel (hb : (t, b) ∈ s.ready p) :
    (s.relabel ρ).fire (ρ.thread t) (b.relabel ρ t) = (s.fire t b).relabel ρ := by
  obtain ⟨thread, hthread, rfl, hblock⟩ := exists_thread_of_mem_ready hb
  have hid : thread.id ∈ p.threadIds :=
    Program.mem_threadIds_iff.2 ⟨thread, Program.mem_threadList.1 hthread⟩
  have hnames (name : String) (hname : name ∈ b.action.names) : name ∈ p.vocabulary :=
    Program.mem_vocabulary_of_block hthread hblock hname
  have hget (name : String) (hname : name ∈ b.action.names) :=
    h.get_relabel hρ (hnames name hname)
  have hinput : (s.relabel ρ).input = s.input := rfl
  apply State.ext
  · have hnext : (b.relabel ρ thread.id).action.next? (s.relabel ρ) (b.relabel ρ thread.id).id =
        (b.action.next? s b.id).map (ρ.block thread.id) :=
      Action.next?_relabel hget hinput b.id
    exact (congrArg ((s.relabel ρ).counters.insert (ρ.thread thread.id)) hnext).trans
      (rekey_insert hρ.thread h.thread hid _).symm
  · change _ = rekey ρ.var (fun _ v => v) (s.fire thread.id b).store
    rw [store_fire, store_fire, Block.relabel, Action.change?_relabel hget hinput]
    cases hchange : b.action.change? s with
    | none => rfl
    | some c =>
      have hc := hnames c.1 (Action.mem_names_of_written? (Action.written?_of_change? hchange))
      exact (rekey_insert hρ.var h.name hc c.2).symm
  · rw [input_fire, Block.relabel, Action.isInput_relabel]
    exact (input_fire s thread.id b).symm
  · rw [output_fire, Block.relabel, Action.printed_relabel hget]
    exact (output_fire s thread.id b).symm
  · rfl

theorem ready_relabel_perm : ((s.relabel ρ).ready (p.relabel ρ)).Perm
    ((s.ready p).map fun turn => (ρ.thread turn.1, turn.2.relabel ρ turn.1)) := by
  have hentries : ((s.relabel ρ).ready (p.relabel ρ)).Perm
      ((p.relabel ρ).readyAmong s.input (s.counters.toList.map fun entry =>
        (ρ.thread entry.1, entry.2.map (ρ.block entry.1)))) :=
    (toList_rekey_perm hρ.thread h.thread).filterMap _
  refine hentries.trans (.of_eq ?_)
  rw [ready, Program.readyAmong, Program.readyAmong, List.filterMap_map, List.map_filterMap]
  apply List.filterMap_congr
  rintro ⟨i, counter⟩ hentry
  rw [Std.ExtTreeMap.mem_toList_iff_getElem?_eq_some] at hentry
  obtain ⟨t, ht⟩ := Program.mem_threadIds_iff.1 (h.thread i (mem_of_getElem?_eq_some hentry))
  have hready := Program.ready?_relabel hρ ht fun j hj => h.block i t j ht (hj ▸ hentry)
  simp only [Function.comp_apply, hready, Option.map_map]
  rfl

/-- The turns from a state under other numbers and names are its turns. -/
theorem successors_relabel_perm : ((s.relabel ρ).successors (p.relabel ρ)).Perm
    ((s.successors p).map fun turn => (ρ.thread turn.1, turn.2.relabel ρ)) := by
  refine ((h.ready_relabel_perm hρ).map _).trans (.of_eq ?_)
  rw [successors, List.map_map, List.map_map]
  apply List.map_congr_left
  rintro ⟨t, b⟩ hb
  exact congrArg (ρ.thread t, ·) (h.fire_relabel hρ hb)

theorem successors_relabel (horder : ρ.KeepsOrder p) :
    (s.relabel ρ).successors (p.relabel ρ) =
      (s.successors p).map fun turn => (ρ.thread turn.1, turn.2.relabel ρ) := by
  -- Turns are listed by ascending threads, and only one arrangement of them is so ordered.
  refine (h.successors_relabel_perm hρ).eq_of_pairwise ?_ (pairwise_successors _ _) ?_
  · intro x y _ _ hxy hyx
    exact absurd hyx (Std.Asymm.asymm _ _ hxy)
  · rw [List.pairwise_map]
    refine (pairwise_successors p s).imp_of_mem ?_
    intro x y hx hy hlt
    exact horder _ (mem_threadIds_of_mem_successors hx) _ (mem_threadIds_of_mem_successors hy) hlt

end Within

theorem relabel_injOn (hρ : ρ.Faithful p) : Set.InjOn (relabel ρ) {s | s.Within p} := by
  intro s hs n hn heq
  obtain ⟨hcounters, hstore, hinput, houtput, hdepth⟩ := State.mk.inj heq
  apply State.ext
  · refine rekey_injective hρ.thread hs.thread hn.thread ?_ hcounters
    intro i c d hc hd heq
    obtain ⟨t, ht⟩ := Program.mem_threadIds_iff.1 (hs.thread i (mem_of_getElem?_eq_some hc))
    obtain rfl := p.filed i t ht
    cases c with
    | none => exact (Option.map_eq_none_iff.1 heq.symm).symm
    | some j =>
      cases d with
      | none => cases heq
      | some k =>
        have hinj := hρ.block t (Program.mem_threadList.2 ht) (hs.block _ t j ht hc)
          (hn.block _ t k ht hd) (Option.some.inj heq)
        rw [hinj]
  · exact rekey_injective hρ.var hs.name hn.name (fun _ _ _ _ _ heq => heq) hstore
  · exact hinput
  · exact houtput
  · exact hdepth

/-- The second state is the first one under other numbers and names. -/
def Relabels (ρ : Relabelling) (p : Program) (s s' : State) : Prop :=
  s.Within p ∧ s' = s.relabel ρ

theorem biUnique_relabels (hρ : ρ.Faithful p) : Relator.BiUnique (Relabels ρ p) := by
  constructor
  · rintro s n _ ⟨hs, heq⟩ ⟨hn, rfl⟩
    exact relabel_injOn hρ hs hn heq.symm
  · rintro s _ _ ⟨-, rfl⟩ ⟨-, rfl⟩
    rfl

end State

/-! ### Problems -/

/-- The thread of the program that has the given number now. -/
noncomputable def Relabelling.origin (ρ : Relabelling) (p : Program) : ThreadId → ThreadId :=
  Function.invFunOn ρ.thread {i | i ∈ p.threadIds}

namespace Problem

variable {q : Problem} {ρ : Relabelling} {s : State}

def relabel (ρ : Relabelling) (q : Problem) : Problem :=
  { q with program := q.program.relabel ρ }

theorem getElem?_counters_initial_iff {i : ThreadId} {c : Option BlockId} :
    q.initial.counters[i]? = some c ↔ ∃ t ∈ q.program.threadList, t.id = i ∧ t.start? = c := by
  constructor
  · intro hc
    have hi := mem_counters_initial.1 (mem_of_getElem?_eq_some hc)
    obtain ⟨t, ht⟩ := Program.mem_threadIds_iff.1 hi
    obtain rfl := q.program.filed i t ht
    have hmem := Program.mem_threadList.2 ht
    rw [counters_initial hmem, Option.some.injEq] at hc
    exact ⟨t, hmem, rfl, hc⟩
  · rintro ⟨t, ht, rfl, rfl⟩
    exact counters_initial ht

theorem within_initial (q : Problem) : q.initial.Within q.program := by
  refine ⟨fun i hi => mem_counters_initial.1 hi, ?_, ?_⟩
  · intro i t j ht hj
    obtain ⟨u, hu, rfl, hstart⟩ := getElem?_counters_initial_iff.1 hj
    obtain rfl := Option.some.inj ((Program.mem_threadList.1 hu).symm.trans ht)
    exact Thread.mem_numbers_of_start? hstart
  · intro name hname
    exact List.mem_append_left _ (mem_store_initial.1 hname)

theorem initial_relabel (hρ : ρ.Faithful q.program) :
    q.initial.relabel ρ = (q.relabel ρ).initial := by
  have hwithin := q.within_initial
  apply State.ext
  · apply Std.ExtTreeMap.ext_getElem?
    intro i
    apply Option.ext
    intro c
    rw [hwithin.getElem?_counters_relabel_iff hρ, getElem?_counters_initial_iff]
    constructor
    · rintro ⟨_, _, hd, rfl, rfl⟩
      obtain ⟨t, ht, rfl, rfl⟩ := getElem?_counters_initial_iff.1 hd
      exact ⟨t.relabel ρ, (Program.mem_threadList_relabel_iff hρ).2 ⟨t, ht, rfl⟩, rfl,
        Thread.start?_relabel (hρ.block t ht)⟩
    · rintro ⟨u, hu, rfl, rfl⟩
      obtain ⟨t, ht, rfl⟩ := (Program.mem_threadList_relabel_iff hρ).1 hu
      exact ⟨t.id, t.start?, counters_initial ht, rfl,
        (Thread.start?_relabel (hρ.block t ht)).symm⟩
  · apply Std.ExtTreeMap.ext_getElem?
    intro name
    apply Option.ext
    intro v
    change (rekey ρ.var (fun _ v => v) q.initial.store)[name]? = some v ↔ _
    simp only [getElem?_rekey_eq_some_iff hρ.var hwithin.name, getElem?_store_initial,
      Option.ite_none_right_eq_some, relabel, Program.declared_relabel hρ, List.mem_map]
    constructor
    · rintro ⟨x, w, ⟨hx, hw⟩, rfl, rfl⟩
      exact ⟨⟨x, hx, rfl⟩, hw⟩
    · rintro ⟨⟨x, hx, rfl⟩, hv⟩
      exact ⟨x, v, ⟨hx, hv⟩, rfl, rfl⟩
  · rfl
  · rfl
  · rfl

theorem mismatch?_relabel (hρ : ρ.Faithful q.program) (hs : s.Within q.program) :
    (q.relabel ρ).mismatch? (s.relabel ρ) = q.mismatch? s := by
  rw [mismatch?, mismatch?, hs.isComplete_relabel hρ]
  rfl

theorem map_origin_map {w : List ThreadId} (hρ : ρ.Faithful q.program) (hw : q.Valid w) :
    (w.map ρ.thread).map (ρ.origin q.program) = w := by
  obtain ⟨s, hw⟩ := hw
  rw [List.map_map]
  refine List.map_congr_left (fun i hi => ?_) |>.trans w.map_id
  exact hρ.thread.leftInvOn_invFunOn (mem_threadIds_of_leads hw hi)

theorem map_map_origin {v : List ThreadId} (hρ : ρ.Faithful q.program)
    (hv : (q.relabel ρ).Valid v) : (v.map (ρ.origin q.program)).map ρ.thread = v := by
  obtain ⟨s, hv⟩ := hv
  rw [List.map_map]
  refine List.map_congr_left (fun i hi => ?_) |>.trans v.map_id
  obtain ⟨u, hu⟩ := Program.mem_threadIds_iff.1 (mem_threadIds_of_leads hv hi)
  obtain rfl := Program.filed _ i u hu
  obtain ⟨t, ht, rfl⟩ := (Program.mem_threadList_relabel_iff hρ).1 (Program.mem_threadList.2 hu)
  have hid : t.id ∈ q.program.threadIds :=
    Program.mem_threadIds_iff.2 ⟨t, Program.mem_threadList.1 ht⟩
  exact Function.invFunOn_eq ⟨t.id, hid, rfl⟩

theorem simulation_relabel (hρ : ρ.Faithful q.program) :
    q.Simulation (q.relabel ρ) ρ.thread (State.Relabels ρ q.program) := by
  refine ⟨⟨q.within_initial, (initial_relabel hρ).symm⟩, ?_, ?_⟩
  · rintro s _ t n ⟨hs, rfl⟩ hturn
    refine ⟨n.relabel ρ, ?_, hs.successor hturn, rfl⟩
    exact (hs.successors_relabel_perm hρ).mem_iff.2 (List.mem_map.2 ⟨(t, n), hturn, rfl⟩)
  · rintro s _ ⟨hs, rfl⟩
    exact (mismatch?_relabel hρ hs).symm

theorem simulation_origin (hρ : ρ.Faithful q.program) :
    (q.relabel ρ).Simulation q (ρ.origin q.program) (flip (State.Relabels ρ q.program)) := by
  refine ⟨⟨q.within_initial, (initial_relabel hρ).symm⟩, ?_, ?_⟩
  · rintro _ s i n' ⟨hs, rfl⟩ hturn
    obtain ⟨⟨t, n⟩, hmem, heq⟩ := List.mem_map.1 ((hs.successors_relabel_perm hρ).mem_iff.1 hturn)
    obtain ⟨rfl, rfl⟩ := Prod.mk.inj heq
    refine ⟨n, ?_, hs.successor hmem, rfl⟩
    rwa [Relabelling.origin,
      hρ.thread.leftInvOn_invFunOn (State.mem_threadIds_of_mem_successors hmem)]
  · rintro _ s ⟨hs, rfl⟩
    exact mismatch?_relabel hρ hs

theorem lockstep_relabel (hρ : ρ.Faithful q.program) (horder : ρ.KeepsOrder q.program) :
    q.Lockstep (q.relabel ρ) ρ.thread (State.Relabels ρ q.program) := by
  refine ⟨⟨q.within_initial, (initial_relabel hρ).symm⟩, ?_, ?_, State.biUnique_relabels hρ⟩
  · rintro s _ ⟨hs, rfl⟩
    rw [relabel, hs.successors_relabel hρ horder, List.forall₂_map_right_iff, List.forall₂_same]
    intro turn hturn
    exact ⟨rfl, hs.successor hturn, rfl⟩
  · rintro s _ ⟨hs, rfl⟩
    exact (mismatch?_relabel hρ hs).symm

theorem totalWithin_relabel (hρ : ρ.Faithful q.program) (k : Nat) :
    q.totalWithin k = (q.relabel ρ).totalWithin k := by
  have hunique := State.biUnique_relabels hρ
  apply Nat.le_antisymm
  · exact (simulation_relabel hρ).totalWithin_le (fun _ _ _ hs hn => hunique.1 hs hn) k
  · exact (simulation_origin hρ).totalWithin_le (fun _ _ _ hs hn => hunique.2 hs hn) k

theorem schedulesWithin_relabel (hρ : ρ.Faithful q.program) (k : Nat) :
    q.schedulesWithin k = (q.relabel ρ).schedulesWithin k := by
  apply Nat.le_antisymm
  · refine (simulation_relabel hρ).schedulesWithin_le ?_ k
    intro v w hv hw heq
    rw [← map_origin_map hρ hv, heq, map_origin_map hρ hw]
  · refine (simulation_origin hρ).schedulesWithin_le ?_ k
    intro v w hv hw heq
    rw [← map_map_origin hρ hv, heq, map_map_origin hρ hw]

/-- A verified problem has all its states examined, so their number does not depend on the order. -/
theorem explored_relabel_of_verified {r r' : Run} (hρ : ρ.Faithful q.program) (hr : q.Ends none r)
    (hr' : (q.relabel ρ).Ends none r') (hv : r.verdict = .verified)
    (hv' : r'.verdict = .verified) : r.exploration.explored = r'.exploration.explored := by
  obtain ⟨n, hn⟩ := hr.exists_explored_eq_of_verified hv
  obtain ⟨n', hn'⟩ := hr'.exists_explored_eq_of_verified hv'
  rw [hn (max n n') (Nat.le_max_left _ _), hn' (max n n') (Nat.le_max_right _ _),
    totalWithin_relabel hρ]

theorem noLater_map_of_origin {w v : List ThreadId} (hρ : ρ.Faithful q.program)
    (horder : ρ.KeepsOrder q.program) (hw : q.Valid w) (hv : (q.relabel ρ).Valid v)
    (hle : Schedule.NoLater w (v.map (ρ.origin q.program))) :
    Schedule.NoLater (w.map ρ.thread) v := by
  rw [← map_map_origin hρ hv]
  obtain ⟨s, hw⟩ := hw
  obtain ⟨x, hv⟩ := hv
  -- The threads that `v` goes back to are threads of the program, as they can be scheduled there.
  obtain ⟨y, hy, -⟩ := (simulation_origin hρ).leads hv
  refine hle.map ?_
  intro i hi j hj
  exact horder i (mem_threadIds_of_leads hw hi) j (mem_threadIds_of_leads hy hj)

theorem schedule_relabel {r r' : Run} {c c' : Counterexample} (hρ : ρ.Faithful q.program)
    (horder : ρ.KeepsOrder q.program) (hr : q.Ends none r) (hr' : (q.relabel ρ).Ends none r')
    (hc : r.verdict = .refuted c) (hc' : r'.verdict = .refuted c') :
    c'.schedule = c.schedule.map ρ.thread := by
  obtain ⟨s, hs, -, -⟩ := hr.firstViolation hc
  obtain ⟨s', hs', -, -⟩ := hr'.firstViolation hc'
  obtain ⟨n, hn, -⟩ := hs.of_simulation (simulation_relabel hρ) (simulation_origin hρ)
    fun w v hw hv => noLater_map_of_origin hρ horder hw hv
  exact (hs'.unique hn).1

/-- **Numbers and names carry no meaning.** Let threads, blocks and variables be given other numbers
and names, so that those that differ go on to differ. Then explorations end for both programs or for
neither, with verdicts of one kind, counterexamples of one depth, and as many states and schedules.
If the order of the threads is kept too, the explorations meet and examine equally many states in
any case, and the schedule of a counterexample is the relabelled one. -/
theorem labels_immaterial (q : Problem) (ρ : Relabelling) (hρ : ρ.Faithful q.program) :
    ((∃ r, q.Ends none r) ↔ ∃ r, (q.relabel ρ).Ends none r) ∧
    (∀ r r', q.Ends none r → (q.relabel ρ).Ends none r' →
      r.verdict.Matches (fun c c' => c.state.depth = c'.state.depth) r'.verdict ∧
      (r.verdict = .verified → r.exploration.visited = r'.exploration.visited ∧
        r.exploration.explored = r'.exploration.explored)) ∧
    (∀ k, q.totalWithin k = (q.relabel ρ).totalWithin k ∧
      q.schedulesWithin k = (q.relabel ρ).schedulesWithin k) ∧
    (ρ.KeepsOrder q.program → ∀ r r', q.Ends none r → (q.relabel ρ).Ends none r' →
      r.exploration.visited = r'.exploration.visited ∧
      r.exploration.explored = r'.exploration.explored ∧
      r.verdict.Matches (fun c c' => c'.schedule = c.schedule.map ρ.thread) r'.verdict) := by
  have hforth := simulation_relabel hρ
  have hback := simulation_origin hρ
  refine ⟨exists_ends_iff_of_simulation hforth hback, ?_, ?_, ?_⟩
  · intro r r' hr hr'
    have hmatches := hr.matches_length_of_simulation hforth hback hr'
    refine ⟨hmatches.imp ?_, ?_⟩
    · intro c c' hc hc' hlength
      rw [hr.depth_of_refuted hc, hr'.depth_of_refuted hc', hlength]
    · intro hv
      have hv' := hmatches.eq_verified hv
      have hexplored := explored_relabel_of_verified hρ hr hr' hv hv'
      rw [hr.visited_eq_explored_of_verified hv, hr'.visited_eq_explored_of_verified hv']
      exact ⟨hexplored, hexplored⟩
  · intro k
    exact ⟨totalWithin_relabel hρ k, schedulesWithin_relabel hρ k⟩
  · intro horder r r' hr hr'
    have hstep := (lockstep_relabel hρ horder).inStep_of_ends hr hr'
    refine ⟨hstep.visited, hstep.explored_eq, ?_⟩
    refine (hr.matches_length_of_simulation hforth hback hr').imp ?_
    intro c c' hc hc' _
    exact schedule_relabel hρ horder hr hr' hc hc'

/-- The race is lost by the same turns under other numbers. -/
theorem shifted_race_refuted :
    Demo.shift.Faithful Demo.Scenario.race.posed.program ∧
    ∃ r c, (Demo.Scenario.race.posed.relabel Demo.shift).Ends none r ∧ r.verdict = .refuted c ∧
      c.schedule = [⟨13⟩, ⟨13⟩] ∧ c.state.depth = 2 := by
  have hids : ∀ i ∈ Demo.Scenario.race.posed.program.threadIds,
      ∀ j ∈ Demo.Scenario.race.posed.program.threadIds,
      (Demo.shift.thread i = Demo.shift.thread j → i = j) ∧
      (i.val < j.val → (Demo.shift.thread i).val < (Demo.shift.thread j).val) := by
    decide +kernel
  have hblocks : ∀ t ∈ Demo.Scenario.race.posed.program.threadList, ∀ i ∈ t.numbers,
      ∀ j ∈ t.numbers, Demo.shift.block t.id i = Demo.shift.block t.id j → i = j := by
    decide +kernel
  have hnames : ∀ x ∈ Demo.Scenario.race.posed.program.vocabulary,
      ∀ y ∈ Demo.Scenario.race.posed.program.vocabulary,
      Demo.shift.var x = Demo.shift.var y → x = y := by
    decide +kernel
  have hfaithful : Demo.shift.Faithful Demo.Scenario.race.posed.program :=
    ⟨fun i hi j hj => (hids i hi j hj).1, fun t ht i hi j hj => hblocks t ht i hi j hj,
      fun x hx y hy => hnames x hx y hy⟩
  obtain ⟨r, c, hr, hc, hschedule, hdepth⟩ := race_refuted
  obtain ⟨hends, hsame, -, hordered⟩ := labels_immaterial _ _ hfaithful
  obtain ⟨r', hr'⟩ := hends.1 ⟨r, hr⟩
  obtain ⟨-, -, hmatches⟩ := hordered (fun i hi j hj => (hids i hi j hj).2) r r' hr hr'
  obtain ⟨c', hc', hturns⟩ := hmatches.exists_of_refuted hc
  obtain ⟨d, hd, hdeep⟩ := (hsame r r' hr hr').1.exists_of_refuted hc
  obtain rfl : c' = d := Verdict.refuted.inj (hc'.symm.trans hd)
  rw [hschedule] at hturns
  exact ⟨hfaithful, r', c', hr', hc', hturns, hdeep.symm.trans hdepth⟩

end Problem

end Flowchart
