import Flowchart.Program.Basic
import Flowchart.Proofs.Shortlex

/-!
# Edits

Threads and programs come about by edits, some of which are refused. Look-ups by number, the lists
in ascending order, the entry of a thread and the list of declared variables are all derived from
one map or list each, and agree with one another. An editor who notes the entry of a thread, and
changes the note with every edit without looking at the other blocks, always has the right note.

## Main definitions

* `Revision`, `Thread.MadeBy`: edits of one thread, and the threads that they make.
* `Thread.Consistent`, `Program.Consistent`: the views of a thread and of a program agree.

## Main results

* `Thread.MadeBy.start?_eq`, `Thread.MadeBy.block?_eq`: what a thread has after its revisions.
* `Thread.consistent`, `Program.consistent`: the views agree.
-/

namespace Flowchart

namespace BlockId

instance : LT BlockId :=
  ⟨fun a b => a.val < b.val⟩

theorem compare_eq_lt_iff {a b : BlockId} : compare a b = .lt ↔ a < b := by
  change compare a.val b.val = .lt ↔ a.val < b.val
  exact Std.compare_eq_lt

instance : Std.Irrefl (· < · : BlockId → BlockId → Prop) :=
  ⟨fun a => UInt32.lt_irrefl a.val⟩

end BlockId

theorem exists_ok_of_map {ε α β : Type} {f : α → β} {x : Except ε α} {y : β}
    (h : x.map f = .ok y) : ∃ a, x = .ok a ∧ f a = y := by
  cases x with
  | error e => cases h
  | ok a =>
    cases h
    exact ⟨a, rfl, rfl⟩

theorem bind_eq_ok_iff {ε α β : Type} {x : Except ε α} {f : α → Except ε β} {y : β} :
    x >>= f = .ok y ↔ ∃ a, x = .ok a ∧ f a = .ok y := by
  cases x with
  | error e => simp [bind, Except.bind]
  | ok a => simp [bind, Except.bind]

/-! ### Views of a thread -/

/-- Look-up, list and entry of the thread agree, and there is at most one entry. -/
structure Thread.Consistent (t : Thread) : Prop where
  stored : ∀ i b, t.block? i = some b → b.id = i
  listed : ∀ b, b ∈ t.blocks ↔ t.block? b.id = some b
  ascending : (t.blocks.map Block.id).Pairwise (· < ·)
  oneStart : ∀ b ∈ t.blocks, ∀ c ∈ t.blocks, b.action.isStart = true →
    c.action.isStart = true → b = c
  start : ∀ i, t.start? = some i ↔ ∃ b, t.block? i = some b ∧ b.action.isStart = true

theorem startsAt_insert (nodes : Std.ExtTreeMap BlockId Action) (i j : BlockId) (a : Action) :
    startsAt (nodes.insert i a) j = if i = j then a.isStart else startsAt nodes j := by
  simp only [startsAt, Std.ExtTreeMap.getElem?_insert, Std.compare_eq_iff_eq]
  split
  · rfl
  · rfl

theorem startsAt_erase (nodes : Std.ExtTreeMap BlockId Action) (i j : BlockId) :
    startsAt (nodes.erase i) j = if i = j then false else startsAt nodes j := by
  simp only [startsAt, Std.ExtTreeMap.getElem?_erase, Std.compare_eq_iff_eq]
  split
  · rfl
  · rfl

namespace Thread

variable {t t' : Thread} {b : Block} {i : BlockId} {old : Option Block}

theorem startsAt_iff_block? : startsAt t.nodes i = true ↔
    ∃ b, t.block? i = some b ∧ b.action.isStart = true := by
  simp [startsAt, block?, Option.any_eq_true]

theorem pairwise_blocks (t : Thread) : (t.blocks.map Block.id).Pairwise (· < ·) := by
  rw [blocks, List.map_map, List.pairwise_map]
  exact Std.ExtTreeMap.ordered_keys_toList.imp BlockId.compare_eq_lt_iff.1

theorem consistent (t : Thread) : t.Consistent where
  stored i b h := (block?_eq_some_iff.1 h).2
  listed b := by rw [block?_eq_some_iff, and_iff_left rfl]
  ascending := t.pairwise_blocks
  oneStart b hb c hc hbs hcs := by
    have hb' := mem_blocks.1 hb
    have hc' := mem_blocks.1 hc
    have hid : b.id = c.id := t.start_unique b.id c.id (by simpa [startsAt, hb'] using hbs)
      (by simpa [startsAt, hc'] using hcs)
    rw [hid, hc', Option.some.injEq] at hb'
    cases b
    cases c
    exact congrArg₂ Block.mk hid hb'.symm
  start i := start?_eq_some_iff.trans startsAt_iff_block?

/-! ### What an edit of a thread does -/

theorem ext_nodes (hid : t.id = t'.id) (hname : t.name = t'.name) (hnodes : t.nodes = t'.nodes) :
    t = t' := by
  cases t
  cases t'
  rw [Thread.mk.injEq]
  exact ⟨hid, hname, hnodes⟩

theorem rival?_eq_some_iff :
    t.rival? b = some i ↔ b.action.isStart = true ∧ t.start? = some i ∧ i ≠ b.id := by
  by_cases hb : b.action.isStart = true
  · simp [rival?, hb, Option.filter_eq_some_iff]
  · simp [rival?, hb]

theorem put_eq_error_iff {e : EditError} :
    t.put b = .error e ↔ ∃ i, t.rival? b = some i ∧ e = .duplicateStart t.id i := by
  unfold put
  split
  · next i hi => simp [hi, eq_comm]
  · next hnone => simp [hnone]

theorem put_eq_ok_iff :
    t.put b = .ok t' ↔ t.rival? b = none ∧ t'.id = t.id ∧ t'.name = t.name ∧
      t'.nodes = t.nodes.insert b.id b.action := by
  unfold put
  split
  · next i hi => simp [hi]
  · next hnone =>
    rw [Except.ok.injEq, and_iff_right hnone]
    constructor
    · rintro rfl
      exact ⟨rfl, rfl, rfl⟩
    · rintro ⟨hid, hname, hnodes⟩
      exact ext_nodes hid.symm hname.symm hnodes.symm

theorem nodes_of_put (h : t.put b = .ok t') : t'.nodes = t.nodes.insert b.id b.action :=
  (put_eq_ok_iff.1 h).2.2.2

theorem block?_of_put (h : t.put b = .ok t') (i : BlockId) :
    t'.block? i = if b.id = i then some b else t.block? i := by
  rw [block?, nodes_of_put h, Std.ExtTreeMap.getElem?_insert]
  by_cases hi : b.id = i
  · subst hi
    simp
  · simp [hi, block?]

/-- A block that is put takes the place of the entry if it is one, and it removes the entry if it is
put over it. -/
theorem start?_of_put (h : t.put b = .ok t') :
    t'.start? = if b.action.isStart then some b.id else t.start?.filter (· ≠ b.id) := by
  ext i
  rw [start?_eq_some_iff, nodes_of_put h, startsAt_insert]
  by_cases hi : b.id = i
  · subst hi
    by_cases hb : b.action.isStart = true
    · simp [hb]
    · simp [hb, Option.filter_eq_some_iff]
  · by_cases hb : b.action.isStart = true
    · -- The rival that `i` would be has been looked for.
      have hrival : t.rival? b = none := (put_eq_ok_iff.1 h).1
      have hnot : startsAt t.nodes i ≠ true := by
        intro hs
        simp [rival?, hb, start?_eq_some_iff.2 hs, Ne.symm hi] at hrival
      simp [hi, hb, hnot]
    · simp [hi, hb, Option.filter_eq_some_iff, ← start?_eq_some_iff, Ne.symm hi]

theorem put_of_insert (h : t.insert b = .ok t') : b.id ∉ t.nodes ∧ t.put b = .ok t' := by
  unfold insert at h
  split at h
  · cases h
  · next hnew => exact ⟨hnew, h⟩

theorem replace_eq_ok_iff :
    t.replace b = .ok (t', old) ↔ t.put b = .ok t' ∧ t.block? b.id = old := by
  rw [replace]
  cases t.put b with
  | error e => simp [Except.map]
  | ok u => simp [Except.map]

theorem mem_nodes_of_start? (h : t.start? = some i) : i ∈ t.nodes := by
  have hs := start?_eq_some_iff.1 h
  rw [startsAt, Option.any_eq_true] at hs
  obtain ⟨a, ha, -⟩ := hs
  rw [Std.ExtTreeMap.mem_iff_isSome_getElem?, ha]
  rfl

/-- Only a block that is the entry can take the entry away. -/
theorem filter_start? (h : ∀ b, t.block? i = some b → b.action.isStart = false) :
    t.start?.filter (· ≠ i) = t.start? := by
  cases hs : t.start? with
  | none => rfl
  | some j =>
    have hne : j ≠ i := by
      rintro rfl
      obtain ⟨b, hb, hstart⟩ := startsAt_iff_block?.1 (start?_eq_some_iff.1 hs)
      rw [h b hb] at hstart
      cases hstart
    simp [hne]

theorem start?_of_insert (h : t.insert b = .ok t') :
    t'.start? = if b.action.isStart then some b.id else t.start? := by
  obtain ⟨hnew, hput⟩ := put_of_insert h
  have hkeep : t.start?.filter (· ≠ b.id) = t.start? := by
    apply filter_start?
    intro c hc
    simp [block?, Std.ExtTreeMap.getElem?_eq_none hnew] at hc
  rw [start?_of_put hput, hkeep]

theorem block?_erase (t : Thread) (i j : BlockId) :
    (t.erase i).1.block? j = if i = j then none else t.block? j := by
  simp only [erase, block?, Std.ExtTreeMap.getElem?_erase, Std.compare_eq_iff_eq]
  split
  · rfl
  · rfl

theorem start?_erase (t : Thread) (i : BlockId) :
    (t.erase i).1.start? = t.start?.filter (· ≠ i) := by
  ext j
  rw [start?_eq_some_iff, erase, startsAt_erase, Option.filter_eq_some_iff, start?_eq_some_iff]
  by_cases hij : i = j
  · simp [hij]
  · simp [hij, Ne.symm hij]

end Thread

/-! ### Revisions -/

/-- An edit of one thread. -/
inductive Revision where
  /-- Give the thread another name. -/
  | rename (name : String)
  /-- Add a block. -/
  | insert (b : Block)
  /-- Put a block in the place of the one with its number. -/
  | replace (b : Block)
  /-- Remove the block with the number. -/
  | erase (i : BlockId)

/-- The thread after an edit, unless the edit is refused. -/
def Thread.revise (t : Thread) : Revision → Except EditError Thread
  | .rename name => .ok (t.renamed name)
  | .insert b => t.insert b
  | .replace b => (t.replace b).map Prod.fst
  | .erase i => .ok (t.erase i).1

namespace Revision

/-- The note of the entry after an edit that was accepted, told from the note before it. -/
def entry (note : Option BlockId) : Revision → Option BlockId
  | rename _ => note
  | insert b => if b.action.isStart then some b.id else note
  | replace b => if b.action.isStart then some b.id else note.filter (· ≠ b.id)
  | erase i => note.filter (· ≠ i)

/-- The block numbered `i` after an edit that was accepted, told from the one before it. -/
def blockAt (i : BlockId) (before : Option Block) : Revision → Option Block
  | rename _ => before
  | insert b => if b.id = i then some b else before
  | replace b => if b.id = i then some b else before
  | erase j => if j = i then none else before

end Revision

namespace Thread

variable {t t' : Thread} {r : Revision} {rs : List Revision}

theorem put_of_revise_replace {b : Block} (h : t.revise (.replace b) = .ok t') :
    t.put b = .ok t' := by
  obtain ⟨⟨t'', old⟩, hreplace, rfl⟩ := exists_ok_of_map h
  exact (replace_eq_ok_iff.1 hreplace).1

theorem start?_of_revise (h : t.revise r = .ok t') : t'.start? = r.entry t.start? := by
  cases r with
  | rename name =>
    cases h
    rfl
  | insert b => exact start?_of_insert h
  | replace b => exact start?_of_put (put_of_revise_replace h)
  | erase i =>
    cases h
    exact t.start?_erase i

theorem block?_of_revise (h : t.revise r = .ok t') (i : BlockId) :
    t'.block? i = r.blockAt i (t.block? i) := by
  cases r with
  | rename name =>
    cases h
    rfl
  | insert b => exact block?_of_put (put_of_insert h).2 i
  | replace b => exact block?_of_put (put_of_revise_replace h) i
  | erase j =>
    cases h
    exact t.block?_erase j i

/-- The accepted edits have made the thread out of an empty one. -/
inductive MadeBy : List Revision → Thread → Prop
  | empty (id : ThreadId) : MadeBy [] (.empty id)
  | revise {rs : List Revision} {t t' : Thread} {r : Revision} (before : MadeBy rs t)
      (accepted : t.revise r = .ok t') : MadeBy (rs ++ [r]) t'

theorem MadeBy.start?_eq (h : MadeBy rs t) : t.start? = rs.foldl Revision.entry none := by
  induction h with
  | empty id => rfl
  | revise _ accepted ih => rw [start?_of_revise accepted, ih, List.foldl_append]; rfl

theorem MadeBy.block?_eq (h : MadeBy rs t) (i : BlockId) :
    t.block? i = rs.foldl (Revision.blockAt i) none := by
  induction h with
  | empty id => rfl
  | revise _ accepted ih => rw [block?_of_revise accepted, ih, List.foldl_append]; rfl

/-- A thread from a list of blocks is made by inserting them. -/
theorem MadeBy.foldlM_insert {blocks : List Block} (h : MadeBy rs t)
    (hblocks : blocks.foldlM Thread.insert t = .ok t') : ∃ rs', MadeBy rs' t' := by
  induction blocks generalizing rs t with
  | nil =>
    cases hblocks
    exact ⟨rs, h⟩
  | cons b blocks ih =>
    rw [List.foldlM_cons, bind_eq_ok_iff] at hblocks
    obtain ⟨t'', hinsert, hrest⟩ := hblocks
    exact ih (h.revise (r := .insert b) hinsert) hrest

end Thread

/-! ### Views of a program -/

/-- Threads are filed under their numbers, listed in ascending order, and no variable is listed
twice. -/
structure Program.Consistent (p : Program) : Prop where
  stored : ∀ i t, p.thread? i = some t → t.id = i
  listed : ∀ t, t ∈ p.threadList ↔ p.thread? t.id = some t
  numbers : p.threadList.map Thread.id = p.threadIds
  ascending : p.threadIds.Pairwise (· < ·)
  nodup : p.declared.Nodup

theorem Program.consistent (p : Program) : p.Consistent where
  stored := p.filed
  listed _ := mem_threadList
  numbers := p.map_id_threadList
  ascending := Std.ExtTreeMap.ordered_keys.imp ThreadId.compare_eq_lt_iff.1
  nodup := p.declared_nodup

theorem Program.thread?_of_attach {p p' : Program} {t u : Thread} {i : ThreadId}
    (h : p.attach t = .ok p') (hu : p'.thread? i = some u) : u = t ∨ p.thread? i = some u := by
  unfold attach at h
  split at h
  · cases h
  · cases h
    simp only [thread?, Std.ExtTreeMap.getElem?_insert] at hu
    split at hu
    · exact .inl (Option.some.inj hu).symm
    · exact .inr hu

theorem Program.thread?_of_detach {p : Program} {u : Thread} {i j : ThreadId}
    (hu : (p.detach j).1.thread? i = some u) : p.thread? i = some u := by
  simp only [detach, thread?, Std.ExtTreeMap.getElem?_erase] at hu
  split at hu
  · cases hu
  · exact hu

theorem Program.declared_of_attach {p p' : Program} {t : Thread} (h : p.attach t = .ok p') :
    p'.declared = p.declared := by
  unfold attach at h
  split at h
  · cases h
  · cases h
    rfl

theorem Program.declared_declare (p : Program) (name : String) :
    (p.declare name).declared =
      if name ∈ p.declared then p.declared else p.declared ++ [name] := by
  rw [declare]
  split
  · next h => rw [if_pos (by simpa [declares] using h)]
  · next h => rw [if_neg (by simpa [declares] using h)]

theorem Program.thread?_declare (p : Program) (name : String) (i : ThreadId) :
    (p.declare name).thread? i = p.thread? i := by
  rw [declare]
  split
  · rfl
  · rfl

end Flowchart
