import Flowchart.Proofs.Undo

/-!
# Sequences of edits at the bench

A program is edited together with the threads that are in hand: threads are made and revised there,
then added to the program, and they can be taken out again. Some edits are refused. The views of the
program and of all threads agree with one another after whatever edits.

## Main definitions

* `Bench`, `Edit`: a program with the threads in hand, and what can be done with them.
* `Bench.perform`, `Bench.after`: edits, refused ones included.

## Main results

* `Bench.made_after`: every thread is made by the revisions that were accepted.
* `Bench.declared_after`: the declared variables, in the order of their declarations.
* `Bench.after_consistent`: the views agree after all edits.
-/

namespace Flowchart

/-- A program and the threads in hand, each in a slot of its own. -/
structure Bench where
  /-- The program. -/
  program : Program
  /-- The threads in hand by slot. -/
  drafts : Std.ExtTreeMap String Thread

/-- An edit at the bench. -/
inductive Edit where
  /-- Take an empty thread in hand. -/
  | create (slot : String) (id : ThreadId)
  /-- Take a thread with the given blocks in hand. -/
  | build (slot : String) (id : ThreadId) (blocks : List Block)
  /-- Edit a thread in hand. -/
  | revise (slot : String) (r : Revision)
  /-- Add a thread in hand to the program. -/
  | attach (slot : String)
  /-- Remove a thread from the program and take it in hand. -/
  | detach (slot : String) (id : ThreadId)
  /-- Declare a variable. -/
  | declare (name : String)

/-- The variable that an edit declares. -/
def Edit.declared? : Edit → Option String
  | declare name => some name
  | _ => none

/-- Edits some of which are refused: a second entry, twice, and a thread attached again. -/
def Demo.session : List Edit :=
  [.declare "x", .create "a" ⟨1⟩, .revise "a" (.insert ⟨⟨0⟩, .start ⟨1⟩⟩),
    .revise "a" (.insert ⟨⟨5⟩, .start ⟨1⟩⟩), .revise "a" (.replace ⟨⟨7⟩, .start ⟨1⟩⟩),
    .revise "a" (.replace ⟨⟨0⟩, .print "x" ⟨1⟩⟩), .revise "a" (.insert ⟨⟨5⟩, .start ⟨0⟩⟩),
    .attach "a", .attach "a", .declare "y", .declare "x"]

namespace Bench

/-- An empty program, and nothing in hand. -/
def new (name : String) : Bench where
  program := .empty name
  drafts := ∅

/-- Take a thread in hand. -/
def hold (w : Bench) (slot : String) (t : Thread) : Bench :=
  { w with drafts := w.drafts.insert slot t }

/-- Carry out an edit, which may be refused. An edit of an empty slot changes nothing, and neither
does the removal of a thread that the program does not have. -/
def apply (w : Bench) : Edit → Except EditError Bench
  | .create slot id => .ok (w.hold slot (.empty id))
  | .build slot id blocks => (Thread.ofBlocks id blocks).map (w.hold slot)
  | .revise slot r =>
    match w.drafts[slot]? with
    | none => .ok w
    | some t => (t.revise r).map (w.hold slot)
  | .attach slot =>
    match w.drafts[slot]? with
    | none => .ok w
    | some t => (w.program.attach t).map fun p => { w with program := p }
  | .detach slot id =>
    match w.program.detach id with
    | (_, none) => .ok w
    | (p, some t) => .ok ({ w with program := p }.hold slot t)
  | .declare name => .ok { w with program := w.program.declare name }

/-- The bench after an edit. One that is refused leaves it as it is. -/
def perform (w : Bench) (edit : Edit) : Bench :=
  match w.apply edit with
  | .ok w' => w'
  | .error _ => w

/-- The bench after a sequence of edits. -/
def after (name : String) (edits : List Edit) : Bench :=
  edits.foldl perform (new name)

/-- The thread is in hand or in the program. -/
def Has (w : Bench) (t : Thread) : Prop :=
  (∃ slot : String, w.drafts[slot]? = some t) ∨ ∃ i, w.program.thread? i = some t

variable {w w' : Bench} {t u : Thread}

theorem after_concat (name : String) (edits : List Edit) (edit : Edit) :
    after name (edits ++ [edit]) = (after name edits).perform edit := by
  rw [after, List.foldl_append]
  rfl

theorem perform_cases (w : Bench) (edit : Edit) :
    (∃ e, w.apply edit = .error e ∧ w.perform edit = w) ∨
      w.apply edit = .ok (w.perform edit) := by
  unfold perform
  split
  · next h => exact .inr h
  · next e h => exact .inl ⟨e, h, rfl⟩

theorem has_of_hold {slot : String} (h : (w.hold slot t).Has u) : u = t ∨ w.Has u := by
  rcases h with ⟨slot', hslot⟩ | hprogram
  · simp only [hold, Std.ExtTreeMap.getElem?_insert] at hslot
    split at hslot
    · exact .inl (Option.some.inj hslot).symm
    · exact .inr (.inl ⟨slot', hslot⟩)
  · exact .inr (.inr hprogram)

/-- Every thread at the bench is made by edits. -/
def Made (w : Bench) : Prop :=
  ∀ t, w.Has t → ∃ rs, Thread.MadeBy rs t

theorem Made.hold {rs : List Revision} (h : w.Made) (slot : String) (ht : Thread.MadeBy rs t) :
    (w.hold slot t).Made := by
  intro u hu
  rcases has_of_hold hu with rfl | hold
  · exact ⟨rs, ht⟩
  · exact h u hold

theorem Made.apply {edit : Edit} (h : w.Made) (happly : w.apply edit = .ok w') : w'.Made := by
  cases edit with
  | create slot id =>
    cases happly
    exact h.hold slot (.empty id)
  | build slot id blocks =>
    obtain ⟨t, ht, rfl⟩ := exists_ok_of_map happly
    obtain ⟨rs, hrs⟩ := (Thread.MadeBy.empty id).foldlM_insert ht
    exact h.hold slot hrs
  | revise slot r =>
    rw [Bench.apply] at happly
    split at happly
    · cases happly
      exact h
    · next t ht =>
      obtain ⟨t', ht', rfl⟩ := exists_ok_of_map happly
      obtain ⟨rs, hrs⟩ := h t (.inl ⟨slot, ht⟩)
      exact h.hold slot (hrs.revise ht')
  | attach slot =>
    rw [Bench.apply] at happly
    split at happly
    · cases happly
      exact h
    · next t ht =>
      obtain ⟨p, hp, rfl⟩ := exists_ok_of_map happly
      rintro u (hu | ⟨i, hu⟩)
      · exact h u (.inl hu)
      · rcases Program.thread?_of_attach hp hu with rfl | hold
        · exact h u (.inl ⟨slot, ht⟩)
        · exact h u (.inr ⟨i, hold⟩)
  | detach slot id =>
    rw [Bench.apply] at happly
    split at happly
    · cases happly
      exact h
    · next p t hdetach =>
      cases happly
      obtain ⟨rfl, ht⟩ := Prod.mk.inj hdetach
      obtain ⟨rs, hrs⟩ := h t (.inr ⟨id, ht⟩)
      -- The thread goes from the program to the slot, with the edits that have made it.
      refine Made.hold ?_ slot hrs
      rintro u (hu | ⟨i, hu⟩)
      · exact h u (.inl hu)
      · exact h u (.inr ⟨i, Program.thread?_of_detach hu⟩)
  | declare name =>
    cases happly
    rintro u (hu | ⟨i, hu⟩)
    · exact h u (.inl hu)
    · exact h u (.inr ⟨i, by rwa [Program.thread?_declare] at hu⟩)

theorem made_after (name : String) (edits : List Edit) : (after name edits).Made := by
  induction edits using List.reverseRecOn with
  | nil =>
    rintro t (⟨slot, hslot⟩ | ⟨i, hi⟩)
    · simp [after, new] at hslot
    · simp [after, new, Program.thread?, Program.empty] at hi
  | append_singleton edits edit ih =>
    rw [after_concat]
    -- A refused edit leaves everything in hand as it was.
    rcases (after name edits).perform_cases edit with ⟨-, -, hsame⟩ | happly
    · rwa [hsame]
    · exact ih.apply happly

theorem declared_of_apply {edit : Edit} (happly : w.apply edit = .ok w') :
    w'.program.declared =
      edit.declared?.elim w.program.declared fun name => (w.program.declare name).declared := by
  cases edit with
  | create slot id =>
    cases happly
    rfl
  | build slot id blocks =>
    obtain ⟨t, -, rfl⟩ := exists_ok_of_map happly
    rfl
  | revise slot r =>
    rw [Bench.apply] at happly
    split at happly
    · cases happly
      rfl
    · obtain ⟨t', -, rfl⟩ := exists_ok_of_map happly
      rfl
  | attach slot =>
    rw [Bench.apply] at happly
    split at happly
    · cases happly
      rfl
    · obtain ⟨p, hp, rfl⟩ := exists_ok_of_map happly
      exact Program.declared_of_attach hp
  | detach slot id =>
    rw [Bench.apply] at happly
    split at happly
    · cases happly
      rfl
    · next p t hdetach =>
      cases happly
      obtain ⟨rfl, -⟩ := Prod.mk.inj hdetach
      rfl
  | declare name =>
    cases happly
    rfl

theorem declared?_of_refused {edit : Edit} {e : EditError} (h : w.apply edit = .error e) :
    edit.declared? = none := by
  cases edit with
  | declare name => cases h
  | _ => rfl

theorem eraseDups_concat (names : List String) (v : String) :
    (names ++ [v]).eraseDups = if v ∈ names then names.eraseDups else names.eraseDups ++ [v] := by
  rw [List.eraseDups_append]
  by_cases hv : v ∈ names
  · simp [List.removeAll, hv]
  · simp [List.removeAll, hv, List.eraseDups_cons]

/-- The declared variables are those of the declarations, each at its first one. -/
theorem declared_after (name : String) (edits : List Edit) :
    (after name edits).program.declared = (edits.filterMap Edit.declared?).eraseDups := by
  induction edits using List.reverseRecOn with
  | nil => rfl
  | append_singleton edits edit ih =>
    rw [after_concat, List.filterMap_append]
    rcases (after name edits).perform_cases edit with ⟨e, hrefused, hsame⟩ | happly
    · simp [hsame, ih, declared?_of_refused hrefused]
    · rw [declared_of_apply happly]
      cases hdeclared : edit.declared? with
      | none => simp [hdeclared, ih]
      | some v =>
        have hlast : [edit].filterMap Edit.declared? = [v] := by simp [hdeclared]
        rw [Option.elim_some, Program.declared_declare, ih, hlast, eraseDups_concat]
        simp only [List.mem_eraseDups]

/-- **Editing keeps the views consistent.** After every sequence of edits, refused ones included,
look-up, list and entry of each thread agree, whether the thread is in hand or in the program; so do
look-up and list of the program. Each thread has the blocks that its accepted edits have left it,
and its entry is the one that an editor notes who changes the note with every edit. So is the note
on a sheet that is edited in place, where a refused replacement takes a block off and puts it back.
The declared variables are listed in the order of their first declarations, each once. -/
theorem after_consistent (name : String) (edits : List Edit) :
    (∀ t, (after name edits).Has t → t.Consistent ∧ ∃ rs, Thread.MadeBy rs t ∧
      t.start? = rs.foldl Revision.entry none ∧
      ∀ i, t.block? i = rs.foldl (Revision.blockAt i) none) ∧
    (∀ id rs i, (Sheet.after id rs).note = some i ↔
      ∃ a, (Sheet.after id rs).nodes[i]? = some a ∧ a.isStart = true) ∧
    (after name edits).program.Consistent ∧
    (after name edits).program.declared = (edits.filterMap Edit.declared?).eraseDups := by
  refine ⟨?_, Sheet.note_after_eq_some_iff, (after name edits).program.consistent,
    declared_after name edits⟩
  intro t ht
  obtain ⟨rs, hrs⟩ := made_after name edits t ht
  exact ⟨t.consistent, rs, hrs, hrs.start?_eq, hrs.block?_eq⟩

/-- A second entry is refused, then accepted when the first one has been replaced. -/
theorem session_consistent :
    ∃ t, (after "p" Demo.session).Has t ∧ t.Consistent ∧ t.start? = some ⟨5⟩ ∧
      (∃ b, t.block? ⟨5⟩ = some b ∧ b.action.isStart = true) ∧
      (after "p" Demo.session).program.declared = ["x", "y"] := by
  have hthread : ((after "p" Demo.session).program.thread? ⟨1⟩).map (·.start?) =
      some (some ⟨5⟩) := by
    decide +kernel
  obtain ⟨t, ht, hstart⟩ := Option.map_eq_some_iff.1 hthread
  obtain ⟨hthreads, -, -, hdeclared⟩ := after_consistent "p" Demo.session
  have hconsistent := (hthreads t (.inr ⟨_, ht⟩)).1
  refine ⟨t, .inr ⟨_, ht⟩, hconsistent, hstart, (hconsistent.start _).1 hstart, ?_⟩
  rw [hdeclared]
  decide +kernel

end Bench

end Flowchart
