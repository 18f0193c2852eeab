import Flowchart.Proofs.Editing
import Flowchart.Proofs.Map

/-!
# Refused edits and undone edits

An edit of a thread either is refused, and then nothing has happened, or it can be undone by another
edit. This is said of threads, where a refused edit gives no thread, and of sheets, which are edited
in place. A sheet has a note of its entry. To replace a block on a sheet is to take the old block
off, with the note if it is about that block, and to add the new one. If the new block is refused
the old one has to be put back, and the note with it.

## Main definitions

* `Sheet`, `Sheet.after`: a flowchart that is edited in place, with a note of its entry.
* `Thread.sheet`: a thread written on a sheet.

## Main results

* `Thread.sheet_insert`, `Thread.sheet_erase`, `Thread.sheet_replace`: edits of a sheet are the
  edits of the thread on it.
* `Sheet.note_after_eq_some_iff`: the note is right after all edits.
* `Thread.edits_atomic_and_undone`: refused edits change nothing, and accepted ones can be undone.
-/

namespace Flowchart

/-- A flowchart that is edited in place. -/
@[ext]
structure Sheet where
  /-- The number of the thread. -/
  id : ThreadId
  /-- The name of the thread. -/
  name : String
  /-- The actions by block number. -/
  nodes : Std.ExtTreeMap BlockId Action
  /-- The note of the entry. -/
  note : Option BlockId

namespace Sheet

/-- Add a block. The other blocks are not looked at: whether there is an entry is known from the
note. -/
def insert (d : Sheet) (b : Block) : Except EditError Unit × Sheet :=
  if b.id ∈ d.nodes then (.error (.duplicateBlock d.id b.id), d)
  else if b.action.isStart then
    match d.note with
    | some existing => (.error (.duplicateStart d.id existing), d)
    | none => (.ok (), { d with nodes := d.nodes.insert b.id b.action, note := some b.id })
  else (.ok (), { d with nodes := d.nodes.insert b.id b.action })

/-- Take the block with the given number off, and the note if it is about that block. -/
def erase (d : Sheet) (i : BlockId) : Option Block × Sheet :=
  match d.nodes[i]? with
  | none => (none, d)
  | some a =>
    (some ⟨i, a⟩, { d with nodes := d.nodes.erase i, note := d.note.filter (· ≠ i) })

/-- Put a block back that was taken off. -/
def putBack (d : Sheet) (b : Block) : Sheet :=
  { d with
    nodes := d.nodes.insert b.id b.action
    note := if b.action.isStart then some b.id else d.note }

/-- Put a block in the place of the one with its number, by way of taking that one off. -/
def replace (d : Sheet) (b : Block) : Except EditError (Option Block) × Sheet :=
  let (old, d') := d.erase b.id
  match d'.insert b with
  | (.ok (), d'') => (.ok old, d'')
  | (.error e, d'') => (.error e, old.elim d'' d''.putBack)

/-- An empty sheet for a thread, named after its number. -/
def blank (id : ThreadId) : Sheet where
  id := id
  name := "Thread " ++ id.val.toNat.repr
  nodes := ∅
  note := none

/-- The sheet after an edit, whether it is accepted or refused. -/
def revise (d : Sheet) : Revision → Sheet
  | .rename name => { d with name }
  | .insert b => (d.insert b).2
  | .replace b => (d.replace b).2
  | .erase i => (d.erase i).2

/-- The sheet after a sequence of edits. -/
def after (id : ThreadId) (edits : List Revision) : Sheet :=
  edits.foldl revise (blank id)

end Sheet

namespace Thread

variable {t t' : Thread} {b old x : Block} {i : BlockId} {e : EditError}

/-- The thread written on a sheet, with a note of its entry. -/
def sheet (t : Thread) : Sheet where
  id := t.id
  name := t.name
  nodes := t.nodes
  note := t.start?

/-- What is left on the sheet of a thread after an edit, with the answer: the new thread, or the old
one if the edit is refused. -/
def onSheet {α : Type} (t : Thread) : Except EditError (Thread × α) → Except EditError α × Sheet
  | .ok (t', answer) => (.ok answer, t'.sheet)
  | .error e => (.error e, t.sheet)

/-! ### Blocks and entries -/

theorem block?_eq_none_iff : t.block? i = none ↔ t.nodes[i]? = none := by
  rw [block?, Option.map_eq_none_iff]

theorem start?_of_block? (h : t.block? i = some b) (hb : b.action.isStart = true) :
    t.start? = some i :=
  start?_eq_some_iff.2 (startsAt_iff_block?.2 ⟨b, h, hb⟩)

/-- A block has a rival if it is an entry and there is another one under another number. -/
theorem rival?_eq_some_iff_mem_blocks :
    t.rival? b = some i ↔
      b.action.isStart = true ∧ ∃ c ∈ t.blocks, c.action.isStart = true ∧ c.id = i ∧ i ≠ b.id := by
  rw [rival?_eq_some_iff, start?_eq_some_iff, startsAt_iff_block?]
  simp only [block?_eq_some_iff]
  constructor
  · rintro ⟨hb, ⟨c, ⟨hc, hid⟩, hstart⟩, hne⟩
    exact ⟨hb, c, hc, hstart, hid, hne⟩
  · rintro ⟨hb, c, hc, hstart, hid, hne⟩
    exact ⟨hb, ⟨c, ⟨hc, hid⟩, hstart⟩, hne⟩

theorem rival?_erase (t : Thread) (b : Block) : (t.erase b.id).1.rival? b = t.rival? b := by
  rw [rival?, rival?, start?_erase, Option.filter_filter]
  simp

theorem insert_of_not_mem (h : b.id ∉ t.nodes) : t.insert b = t.put b := by
  rw [insert, if_neg h]

theorem replace_eq_error_iff : t.replace b = .error e ↔ t.put b = .error e := by
  rw [replace]
  cases t.put b with
  | error e => simp [Except.map]
  | ok u => simp [Except.map]

theorem erase_of_block?_eq_none (h : t.block? i = none) : t.erase i = (t, none) := by
  have hnodes : (t.erase i).1.nodes = t.nodes := by
    apply Std.ExtTreeMap.ext_getElem?
    intro j
    show (t.nodes.erase i)[j]? = t.nodes[j]?
    rw [Std.ExtTreeMap.getElem?_erase]
    by_cases hij : i = j
    · simp [← hij, block?_eq_none_iff.1 h]
    · simp [hij]
  exact Prod.ext (ext_nodes rfl rfl hnodes) h

/-! ### Undoing -/

/-- If the old block is put back it has no rival: the new block has its number, and there was no
other entry beside the old one. -/
theorem rival?_of_put (h : t.put b = .ok t') (hold : t.block? b.id = some old) :
    t'.rival? old = none := by
  obtain ⟨-, hid⟩ := block?_eq_some_iff.1 hold
  rw [Option.eq_none_iff_forall_ne_some]
  intro i hi
  obtain ⟨hstart, hentry, hne⟩ := rival?_eq_some_iff.1 hi
  rw [start?_of_put h, start?_of_block? hold hstart] at hentry
  by_cases hb : b.action.isStart = true
  · rw [if_pos hb, Option.some.injEq] at hentry
    exact hne (hentry.symm.trans hid.symm)
  · simp [hb] at hentry
    exact hentry.2 hentry.1.symm

theorem replace_of_replace (h : t.replace b = .ok (t', some old)) :
    t'.replace old = .ok (t, some b) := by
  obtain ⟨hput, hold⟩ := replace_eq_ok_iff.1 h
  obtain ⟨hmem, hid⟩ := block?_eq_some_iff.1 hold
  obtain ⟨-, hsame, hname, hnodes⟩ := put_eq_ok_iff.1 hput
  refine replace_eq_ok_iff.2
    ⟨put_eq_ok_iff.2 ⟨rival?_of_put hput hold, hsame.symm, hname.symm, ?_⟩, ?_⟩
  · rw [hnodes, ← hid, insert_insert, insert_of_getElem? (mem_blocks.1 hmem)]
  · rw [block?_of_put hput, if_pos hid.symm]

theorem erase_of_replace (h : t.replace b = .ok (t', none)) : t'.erase b.id = (t, some b) := by
  obtain ⟨hput, hnew⟩ := replace_eq_ok_iff.1 h
  obtain ⟨-, hsame, hname, hnodes⟩ := put_eq_ok_iff.1 hput
  refine Prod.ext (ext_nodes hsame hname ?_) ?_
  · show t'.nodes.erase b.id = t.nodes
    rw [hnodes, erase_insert_of_getElem? (block?_eq_none_iff.1 hnew)]
  · show t'.block? b.id = some b
    rw [block?_of_put hput, if_pos rfl]

theorem insert_of_erase (h : t.erase i = (t', some x)) : t'.insert x = .ok t := by
  have hx : t.block? i = some x := congrArg Prod.snd h
  obtain ⟨hmem, rfl⟩ := block?_eq_some_iff.1 hx
  obtain rfl : (t.erase x.id).1 = t' := congrArg Prod.fst h
  have hnew : x.id ∉ (t.erase x.id).1.nodes := by simp [erase]
  rw [insert_of_not_mem hnew]
  refine put_eq_ok_iff.2 ⟨?_, rfl, rfl, ?_⟩
  · rw [rival?_erase, Option.eq_none_iff_forall_ne_some]
    intro i hi
    obtain ⟨hstart, hentry, hne⟩ := rival?_eq_some_iff.1 hi
    rw [start?_of_block? hx hstart, Option.some.injEq] at hentry
    exact hne hentry.symm
  · show t.nodes = (t.nodes.erase x.id).insert x.id x.action
    rw [insert_erase, insert_of_getElem? (mem_blocks.1 hmem)]

/-! ### Edits of a sheet -/

theorem sheet_insert (t : Thread) (b : Block) :
    t.sheet.insert b = t.onSheet ((t.insert b).map (·, ())) := by
  by_cases hmem : b.id ∈ t.nodes
  · simp [Sheet.insert, sheet, insert, hmem, onSheet, Except.map]
  · cases hinsert : t.insert b with
    | error e =>
      rw [insert_of_not_mem hmem] at hinsert
      obtain ⟨i, hi, rfl⟩ := put_eq_error_iff.1 hinsert
      obtain ⟨hb, hentry, -⟩ := rival?_eq_some_iff.1 hi
      simp [Sheet.insert, sheet, hmem, hb, hentry, onSheet, Except.map]
    | ok t' =>
      have hstart := start?_of_insert hinsert
      obtain ⟨-, hput⟩ := put_of_insert hinsert
      obtain ⟨hrival, hid, hname, hnodes⟩ := put_eq_ok_iff.1 hput
      have hsheet : t'.sheet = { t.sheet with
          nodes := t.nodes.insert b.id b.action
          note := if b.action.isStart then some b.id else t.start? } :=
        Sheet.ext hid hname hnodes hstart
      show _ = (Except.ok (), t'.sheet)
      rw [hsheet]
      by_cases hb : b.action.isStart = true
      · -- There is no entry yet: it would be a rival, since the number of the block is new.
        have hnone : t.start? = none := by
          rw [Option.eq_none_iff_forall_ne_some]
          intro i hi
          have hne : i ≠ b.id := by
            rintro rfl
            exact hmem (mem_nodes_of_start? hi)
          rw [rival?_eq_some_iff.2 ⟨hb, hi, hne⟩] at hrival
          cases hrival
        simp [Sheet.insert, sheet, hmem, hb, hnone]
      · simp [Sheet.insert, sheet, hmem, hb]

theorem sheet_erase (t : Thread) (i : BlockId) :
    t.sheet.erase i = ((t.erase i).2, (t.erase i).1.sheet) := by
  cases hnode : t.nodes[i]? with
  | none =>
    rw [erase_of_block?_eq_none (block?_eq_none_iff.2 hnode)]
    simp [Sheet.erase, sheet, hnode]
  | some a =>
    have hsheet : (t.erase i).1.sheet =
        { t.sheet with nodes := t.nodes.erase i, note := t.start?.filter (· ≠ i) } :=
      Sheet.ext rfl rfl rfl (t.start?_erase i)
    rw [hsheet]
    simp [Sheet.erase, sheet, hnode, erase, block?]

/-- The old block is put back where it was, and so is the note. -/
theorem putBack_erase (t : Thread) (i : BlockId) :
    (t.erase i).2.elim (t.erase i).1.sheet (t.erase i).1.sheet.putBack = t.sheet := by
  cases hold : t.block? i with
  | none => rw [erase_of_block?_eq_none hold]; rfl
  | some old =>
    obtain ⟨hmem, rfl⟩ := block?_eq_some_iff.1 hold
    show ((t.block? old.id).elim _ _) = t.sheet
    rw [hold]
    apply Sheet.ext
    · rfl
    · rfl
    · show (t.nodes.erase old.id).insert old.id old.action = t.nodes
      rw [insert_erase, insert_of_getElem? (mem_blocks.1 hmem)]
    · show (if old.action.isStart then some old.id else (t.erase old.id).1.start?) = t.start?
      by_cases hstart : old.action.isStart = true
      · rw [if_pos hstart, start?_of_block? hold hstart]
      · rw [if_neg hstart, start?_erase]
        apply filter_start?
        intro b hb
        rw [hold, Option.some.injEq] at hb
        simpa [hb] using hstart

theorem sheet_replace (t : Thread) (b : Block) : t.sheet.replace b = t.onSheet (t.replace b) := by
  have hnew : b.id ∉ (t.erase b.id).1.nodes := by simp [erase]
  simp only [Sheet.replace, sheet_erase, sheet_insert, insert_of_not_mem hnew]
  cases hput : t.put b with
  | error e =>
    have hrefused : (t.erase b.id).1.put b = .error e := by
      obtain ⟨i, hi, rfl⟩ := put_eq_error_iff.1 hput
      exact put_eq_error_iff.2 ⟨i, by rw [rival?_erase, hi], rfl⟩
    rw [replace_eq_error_iff.2 hput, hrefused]
    show (Except.error e, _) = (Except.error e, t.sheet)
    rw [← putBack_erase t b.id]
  | ok t' =>
    have haccepted : (t.erase b.id).1.put b = .ok t' := by
      obtain ⟨hrival, hid, hname, hnodes⟩ := put_eq_ok_iff.1 hput
      refine put_eq_ok_iff.2 ⟨by rw [rival?_erase, hrival], hid, hname, ?_⟩
      show t'.nodes = (t.nodes.erase b.id).insert b.id b.action
      rw [hnodes, insert_erase]
    rw [replace_eq_ok_iff.2 ⟨hput, rfl⟩, haccepted]
    rfl

/-- An edit of a sheet is one of the thread on it. If it is refused the thread is the same. -/
theorem exists_sheet_revise (t : Thread) (r : Revision) :
    ∃ t', t.sheet.revise r = t'.sheet ∧ (t.revise r = .ok t' ∨ t' = t) := by
  cases r with
  | rename name => exact ⟨t.renamed name, rfl, .inl rfl⟩
  | insert b =>
    simp only [Sheet.revise, sheet_insert, revise]
    cases t.insert b with
    | error e => exact ⟨t, rfl, .inr rfl⟩
    | ok t' => exact ⟨t', rfl, .inl rfl⟩
  | replace b =>
    simp only [Sheet.revise, sheet_replace, revise]
    cases t.replace b with
    | error e => exact ⟨t, rfl, .inr rfl⟩
    | ok answer => exact ⟨answer.1, rfl, .inl rfl⟩
  | erase i =>
    simp only [Sheet.revise, sheet_erase, revise]
    exact ⟨(t.erase i).1, rfl, .inl rfl⟩

/-- Whatever edits a sheet has gone through, there is a thread on it, made by those that were
accepted. -/
theorem exists_sheet_after (id : ThreadId) (edits : List Revision) :
    ∃ t rs, MadeBy rs t ∧ Sheet.after id edits = t.sheet := by
  induction edits using List.reverseRecOn with
  | nil => exact ⟨empty id, [], .empty id, rfl⟩
  | append_singleton edits r ih =>
    obtain ⟨t, rs, hmade, hsheet⟩ := ih
    obtain ⟨t', hrevise, hcases⟩ := t.exists_sheet_revise r
    have hafter : Sheet.after id (edits ++ [r]) = t'.sheet := by
      rw [← hrevise, ← hsheet, Sheet.after, List.foldl_append]
      rfl
    rcases hcases with haccepted | rfl
    · exact ⟨t', rs ++ [r], hmade.revise haccepted, hafter⟩
    · exact ⟨t', rs, hmade, hafter⟩

end Thread

/-- The note on a sheet is about its entry, whatever edits the sheet has gone through. -/
theorem Sheet.note_after_eq_some_iff (id : ThreadId) (edits : List Revision) (i : BlockId) :
    (Sheet.after id edits).note = some i ↔
      ∃ a, (Sheet.after id edits).nodes[i]? = some a ∧ a.isStart = true := by
  obtain ⟨t, -, -, hsheet⟩ := Thread.exists_sheet_after id edits
  rw [hsheet]
  exact Thread.start?_eq_some_iff.trans (Option.any_eq_true _ _)

namespace Thread

variable {t : Thread} {b : Block} {e : EditError}

/-- A replacement is refused exactly if it would give the thread a second entry. -/
theorem replace_eq_error_iff_mem_blocks :
    t.replace b = .error e ↔ b.action.isStart = true ∧
      ∃ c ∈ t.blocks, c.action.isStart = true ∧ c.id ≠ b.id ∧ e = .duplicateStart t.id c.id := by
  rw [replace_eq_error_iff, put_eq_error_iff]
  simp only [rival?_eq_some_iff_mem_blocks]
  constructor
  · rintro ⟨i, ⟨hb, c, hc, hstart, rfl, hne⟩, rfl⟩
    exact ⟨hb, c, hc, hstart, hne, rfl⟩
  · rintro ⟨hb, c, hc, hstart, hne, rfl⟩
    exact ⟨c.id, ⟨hb, c, hc, hstart, rfl, hne⟩, rfl⟩

/-- **Refused edits change nothing, and accepted ones can be undone.** Whatever edits a sheet has
gone through, there is a thread on it, and a refused edit leaves it as it was, note included. A
replacement is refused exactly if the block would be a second entry. An accepted replacement is
undone by putting the old block back, or by erasing the new one if there was none before, and an
erased block can be inserted again. -/
theorem edits_atomic_and_undone :
    (∀ id edits, ∃ t rs, MadeBy rs t ∧ Sheet.after id edits = t.sheet) ∧
    ∀ (t : Thread) (b : Block),
      (∀ e, t.insert b = .error e → t.sheet.insert b = (.error e, t.sheet)) ∧
      ((∃ e, t.replace b = .error e) ↔
        b.action.isStart = true ∧ ∃ c ∈ t.blocks, c.action.isStart = true ∧ c.id ≠ b.id) ∧
      (∀ e, t.replace b = .error e → t.sheet.replace b = (.error e, t.sheet) ∧
        ∃ c ∈ t.blocks, c.action.isStart = true ∧ c.id ≠ b.id ∧ e = .duplicateStart t.id c.id) ∧
      (∀ t' old, t.replace b = .ok (t', some old) → t'.replace old = .ok (t, some b) ∧
        t.sheet.replace b = (.ok (some old), t'.sheet) ∧
        t'.sheet.replace old = (.ok (some b), t.sheet)) ∧
      (∀ t', t.replace b = .ok (t', none) → t'.erase b.id = (t, some b) ∧
        t.sheet.replace b = (.ok none, t'.sheet) ∧ t'.sheet.erase b.id = (some b, t.sheet)) ∧
      ∀ i t' x, t.erase i = (t', some x) → t'.insert x = .ok t ∧
        t.sheet.erase i = (some x, t'.sheet) ∧ t'.sheet.insert x = (.ok (), t.sheet) := by
  refine ⟨exists_sheet_after, ?_⟩
  intro t b
  refine ⟨?_, ?_, ?_, ?_, ?_, ?_⟩
  · intro e h
    rw [sheet_insert, h]
    rfl
  · simp only [replace_eq_error_iff_mem_blocks]
    constructor
    · rintro ⟨-, hb, c, hc, hstart, hne, -⟩
      exact ⟨hb, c, hc, hstart, hne⟩
    · rintro ⟨hb, c, hc, hstart, hne⟩
      exact ⟨_, hb, c, hc, hstart, hne, rfl⟩
  · intro e h
    refine ⟨?_, (replace_eq_error_iff_mem_blocks.1 h).2⟩
    rw [sheet_replace, h]
    rfl
  · intro t' old h
    have hback := replace_of_replace h
    rw [sheet_replace, sheet_replace, h, hback]
    exact ⟨rfl, rfl, rfl⟩
  · intro t' h
    have hback := erase_of_replace h
    rw [sheet_replace, sheet_erase, h, hback]
    exact ⟨rfl, rfl, rfl⟩
  · intro i t' x h
    have hback := insert_of_erase h
    rw [sheet_erase, sheet_insert, h, hback]
    exact ⟨rfl, rfl, rfl⟩

end Thread

end Flowchart
