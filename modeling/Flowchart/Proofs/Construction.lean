import Flowchart.Coverage.Census
import Flowchart.Coverage.Level
import Flowchart.Exploration.Basic
import Flowchart.Program.Defect
import Flowchart.Proofs.Undo

/-!
# Construction in any order

A thread is made from a list of blocks, inserted one after the other until one is refused. Whether
one is refused depends on the list as a whole and not on its order, and so does the thread that is
made. The order decides which block is refused: the first one that clashes with those before it.
A program is made from a list of threads in the same way.

## Main definitions

* `Thread.Compatible`: blocks that make up a thread.
* `Thread.Clash`, `Thread.FirstClash`: a block that cannot follow others, and the first such block
  of a list.
* `Program.attachAll`: the program with further threads, as far as their numbers are free.

## Main results

* `Thread.holds_of_ofBlocks`: what a thread made from a list of blocks has.
* `Thread.ofBlocks_eq_error_iff`: what is said about a list that makes no thread.
* `Program.attachAll_perm`: the order of the threads does not matter.
* `construction_in_any_order`: all this together.
-/

namespace Flowchart

section Fold

variable {α β ε : Type} {f : β → α → Except ε β} {l : List α} {s : β} {e : ε}

theorem bind_eq_error_iff {x : Except ε α} {k : α → Except ε β} :
    x >>= k = .error e ↔ x = .error e ∨ ∃ a, x = .ok a ∧ k a = .error e := by
  cases x with
  | error e => simp [bind, Except.bind]
  | ok a => simp [bind, Except.bind]

/-- A sequence of steps ends at the first one that fails. -/
theorem foldlM_eq_error_iff :
    l.foldlM f s = .error e ↔ ∃ before a after s', l = before ++ a :: after ∧
      before.foldlM f s = .ok s' ∧ f s' a = .error e := by
  induction l generalizing s with
  | nil => simp [pure, Except.pure]
  | cons a l ih =>
    rw [List.foldlM_cons, bind_eq_error_iff]
    constructor
    · rintro (hfails | ⟨s', hstep, hrest⟩)
      · exact ⟨[], a, l, s, rfl, rfl, hfails⟩
      · obtain ⟨before, c, after, s'', rfl, hbefore, hfails⟩ := ih.1 hrest
        refine ⟨a :: before, c, after, s'', rfl, ?_, hfails⟩
        rw [List.foldlM_cons, bind_eq_ok_iff]
        exact ⟨s', hstep, hbefore⟩
    · rintro ⟨before, c, after, s'', heq, hbefore, hfails⟩
      cases before with
      | nil =>
        obtain ⟨rfl, rfl⟩ := List.cons.inj heq
        cases hbefore
        exact .inl hfails
      | cons a' before =>
        obtain ⟨rfl, rfl⟩ := List.cons.inj heq
        rw [List.foldlM_cons, bind_eq_ok_iff] at hbefore
        obtain ⟨s', hstep, hrest⟩ := hbefore
        exact .inr ⟨s', hstep, ih.2 ⟨before, c, after, s'', rfl, hrest, hfails⟩⟩

end Fold

namespace Thread

variable {t t' : Thread} {id : ThreadId} {blocks blocks' : List Block} {b : Block}
  {i : BlockId} {e : EditError}

/-- No number is used twice, and there is one entry at most. -/
structure Compatible (blocks : List Block) : Prop where
  distinct : (blocks.map Block.id).Nodup
  oneStart : blocks.countP (·.action.isStart) ≤ 1

/-- The block cannot follow the blocks before it in a thread: one of them has its number, or its
number is new but both it and one of them are entries. -/
inductive Clash (id : ThreadId) (before : List Block) (b : Block) : EditError → Prop
  | number (used : b.id ∈ before.map Block.id) : Clash id before b (.duplicateBlock id b.id)
  | entry {c : Block} (new : b.id ∉ before.map Block.id) (second : b.action.isStart = true)
      (earlier : c ∈ before) (first : c.action.isStart = true) :
      Clash id before b (.duplicateStart id c.id)

/-- The error is about the first block of the list that clashes with those before it. -/
def FirstClash (id : ThreadId) (blocks : List Block) (e : EditError) : Prop :=
  ∃ before b after, blocks = before ++ b :: after ∧ Clash id before b e ∧
    ∀ earlier c rest e', before = earlier ++ c :: rest → ¬ Clash id earlier c e'

/-- The thread has the given number and the given blocks, and no others. -/
structure Holds (t : Thread) (id : ThreadId) (blocks : List Block) : Prop where
  id_eq : t.id = id
  name_eq : t.name = (empty id).name
  mem_iff : ∀ b, b ∈ t.blocks ↔ b ∈ blocks

/-! ### Insertion of one block -/

theorem mem_nodes_iff : i ∈ t.nodes ↔ ∃ c ∈ t.blocks, c.id = i := by
  rw [Std.ExtTreeMap.mem_iff_isSome_getElem?, Option.isSome_iff_exists]
  constructor
  · rintro ⟨a, ha⟩
    exact ⟨⟨i, a⟩, mem_blocks.2 ha, rfl⟩
  · rintro ⟨c, hc, rfl⟩
    exact ⟨c.action, mem_blocks.1 hc⟩

theorem insert_eq_error_iff :
    t.insert b = .error e ↔ (b.id ∈ t.nodes ∧ e = .duplicateBlock t.id b.id) ∨
      (b.id ∉ t.nodes ∧ ∃ i, t.rival? b = some i ∧ e = .duplicateStart t.id i) := by
  by_cases hmem : b.id ∈ t.nodes
  · simp [insert, hmem, eq_comm]
  · simp [insert_of_not_mem hmem, hmem, put_eq_error_iff]

namespace Holds

theorem mem_nodes_iff (h : t.Holds id blocks) : i ∈ t.nodes ↔ i ∈ blocks.map Block.id := by
  simp only [Thread.mem_nodes_iff, h.mem_iff, List.mem_map]

theorem unique (h : t.Holds id blocks) (h' : t'.Holds id blocks') (hperm : blocks.Perm blocks') :
    t = t' := by
  refine ext_nodes (h.id_eq.trans h'.id_eq.symm) (h.name_eq.trans h'.name_eq.symm) ?_
  apply Std.ExtTreeMap.ext_getElem?
  intro i
  apply Option.ext
  intro a
  have hmem (u : Thread) : u.nodes[i]? = some a ↔ ⟨i, a⟩ ∈ u.blocks :=
    (mem_blocks (b := ⟨i, a⟩)).symm
  rw [hmem, hmem, h.mem_iff, h'.mem_iff, hperm.mem_iff]

/-- A block is refused exactly if it clashes with those inserted before it. -/
theorem insert_eq_error_iff (h : t.Holds id blocks) :
    t.insert b = .error e ↔ Clash id blocks b e := by
  rw [Thread.insert_eq_error_iff, h.mem_nodes_iff, h.id_eq]
  simp only [rival?_eq_some_iff_mem_blocks, h.mem_iff]
  constructor
  · rintro (⟨hused, rfl⟩ | ⟨hnew, i, ⟨hb, c, hc, hstart, rfl, -⟩, rfl⟩)
    · exact .number hused
    · exact .entry hnew hb hc hstart
  · rintro (hused | ⟨hnew, hb, hc, hstart⟩)
    · exact .inl ⟨hused, rfl⟩
    · refine .inr ⟨hnew, _, ⟨hb, _, hc, hstart, rfl, ?_⟩, rfl⟩
      intro heq
      exact hnew (heq ▸ List.mem_map_of_mem hc)

theorem insert (h : t.Holds id blocks) (hinsert : t.insert b = .ok t') :
    t'.Holds id (blocks ++ [b]) := by
  obtain ⟨hnew, hput⟩ := put_of_insert hinsert
  obtain ⟨-, hid, hname, hnodes⟩ := put_eq_ok_iff.1 hput
  refine ⟨hid.trans h.id_eq, hname.trans h.name_eq, ?_⟩
  intro c
  rw [t'.consistent.listed, block?_of_put hput, List.mem_append, List.mem_singleton]
  by_cases hc : b.id = c.id
  · have hne : c ∉ blocks := fun hmem =>
      hnew (h.mem_nodes_iff.2 (hc ▸ List.mem_map_of_mem hmem))
    rw [if_pos hc, Option.some.injEq, or_iff_right hne, eq_comm]
  · have hne : c ≠ b := fun heq => hc (heq ▸ rfl)
    rw [if_neg hc, ← t.consistent.listed, h.mem_iff, or_iff_left hne]

end Holds

/-! ### Insertion of a list of blocks -/

theorem ofBlocks_concat (id : ThreadId) (blocks : List Block) (b : Block) :
    ofBlocks id (blocks ++ [b]) = ofBlocks id blocks >>= (insert · b) := by
  simp [ofBlocks, List.foldlM_append]

/-- A thread made from a list of blocks has these blocks. -/
theorem holds_of_ofBlocks (h : ofBlocks id blocks = .ok t) : t.Holds id blocks := by
  induction blocks using List.reverseRecOn generalizing t with
  | nil =>
    cases h
    exact ⟨rfl, rfl, fun b => by simp [blocks, empty]⟩
  | append_singleton blocks b ih =>
    rw [ofBlocks_concat, bind_eq_ok_iff] at h
    obtain ⟨u, hu, hinsert⟩ := h
    exact (ih hu).insert hinsert

theorem compatible_concat (id : ThreadId) :
    Compatible (blocks ++ [b]) ↔ Compatible blocks ∧ ∀ e, ¬ Clash id blocks b e := by
  constructor
  · rintro ⟨hdistinct, hstart⟩
    rw [List.map_append, List.nodup_append] at hdistinct
    rw [List.countP_append] at hstart
    refine ⟨⟨hdistinct.1, by omega⟩, ?_⟩
    rintro e (hused | ⟨hnew, hb, hc, hc'⟩)
    · exact hdistinct.2.2 _ hused b.id (by simp) rfl
    · have hpos : 0 < blocks.countP (·.action.isStart) := List.countP_pos_iff.2 ⟨_, hc, hc'⟩
      have hlast : [b].countP (·.action.isStart) = 1 := by simp [hb]
      omega
  · rintro ⟨⟨hdistinct, hstart⟩, hclash⟩
    have hnew : b.id ∉ blocks.map Block.id := fun hused => hclash _ (.number hused)
    refine ⟨?_, ?_⟩
    · rw [List.map_append, List.nodup_append]
      refine ⟨hdistinct, by simp, ?_⟩
      rintro i hi j hj rfl
      rw [List.map_singleton, List.mem_singleton] at hj
      exact hnew (hj ▸ hi)
    · rw [List.countP_append]
      by_cases hb : b.action.isStart = true
      · -- The block would clash with an earlier entry.
        have hzero : blocks.countP (·.action.isStart) = 0 := by
          rw [List.countP_eq_zero]
          exact fun c hc hc' => hclash _ (.entry hnew hb hc hc')
        simp [hzero, hb]
      · simpa [hb] using hstart

/-- A list of blocks makes a thread if the blocks are compatible, and only then. -/
theorem exists_ofBlocks_iff (id : ThreadId) :
    (∃ t, ofBlocks id blocks = .ok t) ↔ Compatible blocks := by
  induction blocks using List.reverseRecOn with
  | nil => exact ⟨fun _ => ⟨List.nodup_nil, Nat.zero_le 1⟩, fun _ => ⟨empty id, rfl⟩⟩
  | append_singleton blocks b ih =>
    rw [compatible_concat id, ← ih]
    simp only [ofBlocks_concat, bind_eq_ok_iff]
    constructor
    · rintro ⟨t, u, hu, hinsert⟩
      refine ⟨⟨u, hu⟩, ?_⟩
      intro e hclash
      rw [(holds_of_ofBlocks hu).insert_eq_error_iff.2 hclash] at hinsert
      cases hinsert
    · rintro ⟨⟨u, hu⟩, hclash⟩
      cases hinsert : u.insert b with
      | error e => exact absurd ((holds_of_ofBlocks hu).insert_eq_error_iff.1 hinsert) (hclash e)
      | ok t => exact ⟨t, u, hu, hinsert⟩

theorem Compatible.perm (h : Compatible blocks) (hperm : blocks.Perm blocks') :
    Compatible blocks' where
  distinct := (hperm.map Block.id).nodup_iff.1 h.distinct
  oneStart := by rw [← hperm.countP_eq]; exact h.oneStart

theorem ofBlocks_perm (h : ofBlocks id blocks = .ok t) (hperm : blocks.Perm blocks') :
    ofBlocks id blocks' = .ok t := by
  have hcompatible : Compatible blocks := (exists_ofBlocks_iff id).1 ⟨t, h⟩
  obtain ⟨t', ht'⟩ := (exists_ofBlocks_iff id).2 (hcompatible.perm hperm)
  rw [ht', (holds_of_ofBlocks h).unique (holds_of_ofBlocks ht') hperm]

theorem Compatible.of_append (h : Compatible (blocks ++ blocks')) : Compatible blocks where
  distinct := h.distinct.sublist ((List.sublist_append_left _ _).map _)
  oneStart := (List.sublist_append_left _ _).countP_le.trans h.oneStart

/-- Blocks are compatible if none of them clashes with those before it. -/
theorem compatible_iff_forall_not_clash (id : ThreadId) :
    Compatible blocks ↔
      ∀ before b after e, blocks = before ++ b :: after → ¬ Clash id before b e := by
  constructor
  · rintro h before b after e rfl hclash
    obtain ⟨t, ht⟩ := (exists_ofBlocks_iff id).2 h
    obtain ⟨u, hu⟩ := (exists_ofBlocks_iff id).2 h.of_append
    -- The block is refused, so the list makes no thread.
    have hinsert := (holds_of_ofBlocks hu).insert_eq_error_iff.2 hclash
    have herror : ofBlocks id (before ++ b :: after) = .error e :=
      foldlM_eq_error_iff.2 ⟨before, b, after, u, rfl, hu, hinsert⟩
    rw [herror] at ht
    cases ht
  · intro h
    cases hof : ofBlocks id blocks with
    | ok t => exact (exists_ofBlocks_iff id).1 ⟨t, hof⟩
    | error e =>
      obtain ⟨before, b, after, u, heq, hu, hinsert⟩ := foldlM_eq_error_iff.1 hof
      exact absurd ((holds_of_ofBlocks hu).insert_eq_error_iff.1 hinsert) (h before b after e heq)

theorem ofBlocks_eq_error_iff : ofBlocks id blocks = .error e ↔ FirstClash id blocks e := by
  rw [ofBlocks, foldlM_eq_error_iff]
  constructor
  · rintro ⟨before, b, after, u, heq, hu, hinsert⟩
    refine ⟨before, b, after, heq, (holds_of_ofBlocks hu).insert_eq_error_iff.1 hinsert, ?_⟩
    exact (compatible_iff_forall_not_clash id).1 ((exists_ofBlocks_iff id).1 ⟨u, hu⟩)
  · rintro ⟨before, b, after, heq, hclash, hfirst⟩
    obtain ⟨u, hu⟩ := (exists_ofBlocks_iff id).2 ((compatible_iff_forall_not_clash id).2 hfirst)
    exact ⟨before, b, after, u, heq, hu, (holds_of_ofBlocks hu).insert_eq_error_iff.2 hclash⟩

end Thread

/-! ### Programs -/

namespace Program

variable {p p' : Program} {t : Thread} {ts ts' : List Thread} {i : ThreadId}

theorem ext_threads (hname : p.name = p'.name) (hthreads : ∀ i, p.thread? i = p'.thread? i)
    (hdeclared : p.declared = p'.declared) : p = p' := by
  have hmap : p.threads = p'.threads := Std.ExtTreeMap.ext_getElem? hthreads
  cases p
  cases p'
  rw [Program.mk.injEq]
  exact ⟨hname, hmap, hdeclared⟩

/-- The program with a further thread. One that is refused is left out. -/
def accept (p : Program) (t : Thread) : Program :=
  match p.attach t with
  | .ok p' => p'
  | .error _ => p

/-- The program with further threads, added one after the other. Those that are refused are left
out. -/
def attachAll (p : Program) (ts : List Thread) : Program :=
  ts.foldl accept p

theorem mem_threads_iff : i ∈ p.threads ↔ p.thread? i ≠ none := by
  rw [Std.ExtTreeMap.mem_iff_isSome_getElem?, Option.isSome_iff_ne_none]
  rfl

theorem attach_of_free (h : p.thread? t.id = none) : p.attach t = .ok (p.accept t) := by
  have hfree : t.id ∉ p.threads := fun hused => mem_threads_iff.1 hused h
  simp [accept, attach, hfree]

theorem accept_keeps (p : Program) (t : Thread) :
    (p.accept t).name = p.name ∧ (p.accept t).declared = p.declared := by
  by_cases hused : t.id ∈ p.threads
  · simp [accept, attach, hused]
  · simp [accept, attach, hused]

theorem thread?_accept (p : Program) (t : Thread) (i : ThreadId) :
    (p.accept t).thread? i = (p.thread? i).or (if t.id = i then some t else none) := by
  by_cases hused : t.id ∈ p.threads
  · have haccept : p.accept t = p := by simp [accept, attach, hused]
    rw [haccept]
    by_cases hi : t.id = i
    · subst hi
      obtain ⟨u, hu⟩ := Option.ne_none_iff_exists'.1 (mem_threads_iff.1 hused)
      rw [hu, Option.some_or]
    · rw [if_neg hi, Option.or_none]
  · have hfree : p.threads[t.id]? = none := Std.ExtTreeMap.getElem?_eq_none hused
    have haccept : (p.accept t).thread? i = (p.threads.insert t.id t)[i]? := by
      simp [accept, attach, hused, thread?]
    rw [haccept, Std.ExtTreeMap.getElem?_insert]
    by_cases hi : t.id = i
    · subst hi
      simp [thread?, hfree]
    · simp [thread?, hi]

theorem attachAll_keeps (p : Program) (ts : List Thread) :
    (p.attachAll ts).name = p.name ∧ (p.attachAll ts).declared = p.declared := by
  induction ts generalizing p with
  | nil => exact ⟨rfl, rfl⟩
  | cons t ts ih =>
    obtain ⟨hname, hdeclared⟩ := ih (p.accept t)
    exact ⟨hname.trans (p.accept_keeps t).1, hdeclared.trans (p.accept_keeps t).2⟩

/-- The threads that were there stay, and each free number goes to the first thread that asks for
it. -/
theorem thread?_attachAll (p : Program) (ts : List Thread) (i : ThreadId) :
    (p.attachAll ts).thread? i = (p.thread? i).or (ts.find? (·.id = i)) := by
  induction ts generalizing p with
  | nil => simp [attachAll]
  | cons t ts ih =>
    show ((p.accept t).attachAll ts).thread? i = _
    rw [ih, thread?_accept, Option.or_assoc, List.find?_cons]
    by_cases hi : t.id = i
    · simp [hi]
    · simp [hi]

theorem find?_id_eq_some_iff (hdistinct : (ts.map Thread.id).Nodup) :
    ts.find? (·.id = i) = some t ↔ t ∈ ts ∧ t.id = i := by
  constructor
  · intro h
    exact ⟨List.mem_of_find?_eq_some h, by simpa using List.find?_some h⟩
  · rintro ⟨ht, rfl⟩
    cases hfind : ts.find? (·.id = t.id) with
    | none => exact absurd (decide_eq_true rfl) (List.find?_eq_none.1 hfind t ht)
    | some u =>
      have hid : u.id = t.id := by simpa using List.find?_some hfind
      rw [List.inj_on_of_nodup_map hdistinct (List.mem_of_find?_eq_some hfind) ht hid]

theorem attachAll_perm (p : Program) (hdistinct : (ts.map Thread.id).Nodup)
    (hperm : ts.Perm ts') : p.attachAll ts = p.attachAll ts' := by
  have hdistinct' : (ts'.map Thread.id).Nodup := (hperm.map Thread.id).nodup_iff.1 hdistinct
  apply ext_threads
  · rw [(p.attachAll_keeps ts).1, (p.attachAll_keeps ts').1]
  · intro i
    have hfind : ts.find? (·.id = i) = ts'.find? (·.id = i) := by
      apply Option.ext
      intro t
      rw [find?_id_eq_some_iff hdistinct, find?_id_eq_some_iff hdistinct', hperm.mem_iff]
    rw [thread?_attachAll, thread?_attachAll, hfind]
  · rw [(p.attachAll_keeps ts).2, (p.attachAll_keeps ts').2]

theorem thread?_attachAll_eq_some_iff (hdistinct : (ts.map Thread.id).Nodup) :
    (p.attachAll ts).thread? i = some t ↔
      p.thread? i = some t ∨ (p.thread? i = none ∧ t ∈ ts ∧ t.id = i) := by
  rw [thread?_attachAll, Option.or_eq_some_iff, find?_id_eq_some_iff hdistinct]

/-- Threads with numbers of their own are all added. -/
theorem foldlM_attach_eq_ok (hdistinct : (ts.map Thread.id).Nodup)
    (hfree : ∀ t ∈ ts, p.thread? t.id = none) : ts.foldlM attach p = .ok (p.attachAll ts) := by
  induction ts generalizing p with
  | nil => rfl
  | cons t ts ih =>
    rw [List.map_cons, List.nodup_cons] at hdistinct
    rw [List.foldlM_cons, bind_eq_ok_iff]
    refine ⟨p.accept t, attach_of_free (hfree t List.mem_cons_self), ih hdistinct.2 ?_⟩
    intro u hu
    have hne : t.id ≠ u.id := fun heq => hdistinct.1 (heq ▸ List.mem_map_of_mem hu)
    rw [thread?_accept, if_neg hne, Option.or_none]
    exact hfree u (List.mem_cons_of_mem _ hu)

end Program

/-- **Construction does not depend on order.** A list of blocks makes a thread exactly if no number
is used twice and there is one entry at most, and every order of the list makes the same thread.
Otherwise the error is about the first block that clashes with earlier ones. Threads with different
numbers can be added to a program in any order, with one result, and all of them are added if none
of their numbers is in use. -/
theorem construction_in_any_order :
    (∀ id blocks,
      ((∃ t, Thread.ofBlocks id blocks = .ok t) ↔ Thread.Compatible blocks) ∧
      (∀ t, Thread.ofBlocks id blocks = .ok t → t.id = id ∧
        (∀ i b, t.block? i = some b ↔ b ∈ blocks ∧ b.id = i) ∧
        ∀ blocks', blocks.Perm blocks' → Thread.ofBlocks id blocks' = .ok t) ∧
      ∀ e, Thread.ofBlocks id blocks = .error e ↔ Thread.FirstClash id blocks e) ∧
    ∀ (p : Program) (ts ts' : List Thread), (ts.map Thread.id).Nodup → ts.Perm ts' →
      p.attachAll ts = p.attachAll ts' ∧
      (∀ i t, (p.attachAll ts).thread? i = some t ↔
        p.thread? i = some t ∨ (p.thread? i = none ∧ t ∈ ts ∧ t.id = i)) ∧
      ((∀ t ∈ ts, p.thread? t.id = none) →
        (∀ t ∈ ts, (p.attachAll ts).thread? t.id = some t) ∧
        ts.foldlM Program.attach p = .ok (p.attachAll ts) ∧
        ts'.foldlM Program.attach p = .ok (p.attachAll ts)) ∧
      (p.attachAll ts).findings = (p.attachAll ts').findings ∧
      ∀ input expected,
        (∀ fuel limit, (Problem.mk (p.attachAll ts) input expected).explore fuel limit =
          (Problem.mk (p.attachAll ts') input expected).explore fuel limit) ∧
        ∀ k, (Problem.mk (p.attachAll ts) input expected).totalWithin k =
            (Problem.mk (p.attachAll ts') input expected).totalWithin k ∧
          (Problem.mk (p.attachAll ts) input expected).schedulesWithin k =
            (Problem.mk (p.attachAll ts') input expected).schedulesWithin k := by
  refine ⟨?_, ?_⟩
  · intro id blocks
    refine ⟨Thread.exists_ofBlocks_iff id, ?_, fun e => Thread.ofBlocks_eq_error_iff⟩
    intro t ht
    have hholds := Thread.holds_of_ofBlocks ht
    refine ⟨hholds.id_eq, ?_, fun blocks' hperm => Thread.ofBlocks_perm ht hperm⟩
    intro i b
    rw [Thread.block?_eq_some_iff, hholds.mem_iff]
  · intro p ts ts' hdistinct hperm
    have hsame := p.attachAll_perm hdistinct hperm
    have hdistinct' : (ts'.map Thread.id).Nodup := (hperm.map Thread.id).nodup_iff.1 hdistinct
    refine ⟨hsame, fun i t => Program.thread?_attachAll_eq_some_iff hdistinct, ?_, ?_⟩
    · intro hfree
      have hfree' (t : Thread) (ht : t ∈ ts') : p.thread? t.id = none :=
        hfree t (hperm.mem_iff.2 ht)
      refine ⟨?_, Program.foldlM_attach_eq_ok hdistinct hfree, ?_⟩
      · intro t ht
        exact (Program.thread?_attachAll_eq_some_iff hdistinct).2 (.inr ⟨hfree t ht, ht, rfl⟩)
      · rw [hsame]
        exact Program.foldlM_attach_eq_ok hdistinct' hfree'
    · rw [hsame]
      exact ⟨rfl, fun input expected => ⟨fun fuel limit => rfl, fun k => ⟨rfl, rfl⟩⟩⟩

-- A number that is used twice is reported even for a second entry.
example : Thread.ofBlocks ⟨1⟩ [⟨⟨0⟩, .start ⟨1⟩⟩, ⟨⟨0⟩, .start ⟨2⟩⟩] =
    .error (.duplicateBlock ⟨1⟩ ⟨0⟩) := by
  decide +kernel

end Flowchart
