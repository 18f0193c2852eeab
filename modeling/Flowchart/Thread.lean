import Flowchart.Block.Basic

/-!
# Threads

A thread is one flowchart: a number, a name and a finite map from block numbers to actions. The map
holds at most one entry (START) block, which is part of the type, so `Thread.start?` is determined
by the blocks alone.

* `Thread.blocks`, `Thread.block?`: the blocks in ascending order, and look-up by number.
* `Thread.insert`, `Thread.replace`, `Thread.erase`: edits. A refused edit gives no thread, so the
  old one stands.
* `EditError`: why an edit of a thread or a program is refused. It would use a number twice or give
  a thread a second entry.
* `Thread.ofBlocks`: a thread from a list of blocks.
-/

namespace Flowchart

/-- Why an edit was refused. -/
inductive EditError where
  /-- The thread already has a block with this number. -/
  | duplicateBlock (thread : ThreadId) (block : BlockId)
  /-- The thread already has an entry, namely the block `existing`. -/
  | duplicateStart (thread : ThreadId) (existing : BlockId)
  /-- The program already has a thread with this number. -/
  | duplicateThread (thread : ThreadId)
  deriving DecidableEq

/-- What to say about a refused edit. -/
def EditError.message : EditError → String
  | duplicateBlock thread block =>
    "Block with id " ++ block.text ++ " already exists in thread " ++ thread.text
  | duplicateStart thread existing =>
    "Thread " ++ thread.text ++ " already has a START block (" ++ existing.text ++ ")"
  | duplicateThread thread =>
    "Thread with id " ++ thread.text ++ " already exists"

/-- Whether the block numbered `i` of a flowchart is an entry. -/
def startsAt (nodes : Std.ExtTreeMap BlockId Action) (i : BlockId) : Bool :=
  nodes[i]?.any Action.isStart

/-- One flowchart, with at most one entry. -/
structure Thread where
  /-- The number of the thread in its program. -/
  id : ThreadId
  /-- A name for people; it has no effect on what the thread does. -/
  name : String
  /-- The actions by block number. -/
  nodes : Std.ExtTreeMap BlockId Action
  /-- No two blocks are entries. -/
  start_unique : ∀ i j, startsAt nodes i → startsAt nodes j → i = j
  deriving DecidableEq

namespace Thread

/-- A thread without blocks, named after its number. -/
def empty (id : ThreadId) : Thread where
  id := id
  name := "Thread " ++ id.val.toNat.repr
  nodes := ∅
  start_unique := by simp [startsAt]

/-- The same thread under another name. -/
def renamed (t : Thread) (name : String) : Thread :=
  { t with name }

/-- The block with a given number. -/
def block? (t : Thread) (i : BlockId) : Option Block :=
  t.nodes[i]?.map (Block.mk i)

/-- The blocks in ascending order of their numbers. -/
def blocks (t : Thread) : List Block :=
  t.nodes.toList.map fun (i, a) => ⟨i, a⟩

/-- The number of blocks. -/
def size (t : Thread) : Nat :=
  t.nodes.size

/-- The number of the entry block, if there is one. -/
def start? (t : Thread) : Option BlockId :=
  (t.blocks.find? (·.action.isStart)).map (·.id)

theorem mem_blocks {t : Thread} {b : Block} : b ∈ t.blocks ↔ t.nodes[b.id]? = some b.action := by
  simp only [blocks, List.mem_map, Prod.exists, Std.ExtTreeMap.mem_toList_iff_getElem?_eq_some]
  constructor
  · rintro ⟨i, a, h, rfl⟩
    exact h
  · exact fun h => ⟨b.id, b.action, h, rfl⟩

theorem block?_eq_some_iff {t : Thread} {i : BlockId} {b : Block} :
    t.block? i = some b ↔ b ∈ t.blocks ∧ b.id = i := by
  rw [mem_blocks, block?, Option.map_eq_some_iff]
  constructor
  · rintro ⟨a, ha, rfl⟩
    exact ⟨ha, rfl⟩
  · rintro ⟨hb, rfl⟩
    exact ⟨b.action, hb, rfl⟩

/-- The entry block is the one block that is an entry. -/
theorem start?_eq_some_iff {t : Thread} {i : BlockId} :
    t.start? = some i ↔ startsAt t.nodes i = true := by
  constructor
  · intro h
    simp only [start?, Option.map_eq_some_iff] at h
    obtain ⟨b, hb, rfl⟩ := h
    have hmem := mem_blocks.1 (List.mem_of_find?_eq_some hb)
    have hstart := List.find?_some hb
    simpa [startsAt, hmem] using hstart
  · intro h
    cases hn : t.nodes[i]? with
    | none => simp [startsAt, hn] at h
    | some a =>
      have ha : a.isStart = true := by simpa [startsAt, hn] using h
      have hmem : (⟨i, a⟩ : Block) ∈ t.blocks := mem_blocks.2 hn
      cases hf : t.blocks.find? (·.action.isStart) with
      | none => exact absurd ha (List.find?_eq_none.1 hf _ hmem)
      | some b =>
        have hb := mem_blocks.1 (List.mem_of_find?_eq_some hf)
        have hs : startsAt t.nodes b.id = true := by
          have := List.find?_some hf
          simpa [startsAt, hb] using this
        simp [start?, hf, t.start_unique _ _ hs h]

/-- The entry that a block would compete with if it were put into the thread under its number. -/
def rival? (t : Thread) (b : Block) : Option BlockId :=
  if b.action.isStart then t.start?.filter (· ≠ b.id) else none

theorem start_unique_insert {t : Thread} {b : Block} (h : t.rival? b = none) (i j : BlockId)
    (hi : startsAt (t.nodes.insert b.id b.action) i)
    (hj : startsAt (t.nodes.insert b.id b.action) j) : i = j := by
  have key : ∀ k, startsAt (t.nodes.insert b.id b.action) k = true →
      (k = b.id ∧ b.action.isStart = true) ∨ (k ≠ b.id ∧ startsAt t.nodes k = true) := by
    intro k hk
    by_cases hkb : b.id = k
    · subst hkb
      exact .inl ⟨rfl, by simpa [startsAt] using hk⟩
    · refine .inr ⟨Ne.symm hkb, ?_⟩
      simpa [startsAt, Std.ExtTreeMap.getElem?_insert, hkb] using hk
  have none_else : b.action.isStart = true → ∀ k, k ≠ b.id → startsAt t.nodes k = true → False := by
    intro hb k hk hs
    rw [rival?, if_pos hb, start?_eq_some_iff.2 hs] at h
    simp [hk] at h
  rcases key i hi with ⟨hib, hb⟩ | ⟨hib, hsi⟩ <;> rcases key j hj with ⟨hjb, hb'⟩ | ⟨hjb, hsj⟩
  · exact hib.trans hjb.symm
  · exact (none_else hb j hjb hsj).elim
  · exact (none_else hb' i hib hsi).elim
  · exact t.start_unique i j hsi hsj

/-- Put a block under its number, over any block that was there. Refused if the thread would have
two entries. -/
def put (t : Thread) (b : Block) : Except EditError Thread :=
  match h : t.rival? b with
  | some existing => .error (.duplicateStart t.id existing)
  | none => .ok
    { t with nodes := t.nodes.insert b.id b.action, start_unique := start_unique_insert h }

/-- Add a block under a number not used yet. A used number is reported before a second entry. -/
def insert (t : Thread) (b : Block) : Except EditError Thread :=
  if b.id ∈ t.nodes then .error (.duplicateBlock t.id b.id) else t.put b

/-- Put a block in the place of the one with its number, if any, and hand back the old one. -/
def replace (t : Thread) (b : Block) : Except EditError (Thread × Option Block) :=
  (t.put b).map fun t' => (t', t.block? b.id)

theorem start_unique_erase (t : Thread) (k i j : BlockId) (hi : startsAt (t.nodes.erase k) i)
    (hj : startsAt (t.nodes.erase k) j) : i = j := by
  have key : ∀ m, startsAt (t.nodes.erase k) m = true → startsAt t.nodes m = true := by
    intro m hm
    by_cases hkm : k = m
    · simp [startsAt, hkm] at hm
    · simpa [startsAt, Std.ExtTreeMap.getElem?_erase, hkm] using hm
  exact t.start_unique i j (key i hi) (key j hj)

/-- The thread without the block numbered `i`, and that block. References to it are left as they
are. -/
def erase (t : Thread) (i : BlockId) : Thread × Option Block :=
  ({ t with nodes := t.nodes.erase i, start_unique := t.start_unique_erase i }, t.block? i)

/-- The thread with the given blocks, inserted one after the other; the first refusal counts. -/
def ofBlocks (id : ThreadId) (blocks : List Block) : Except EditError Thread :=
  blocks.foldlM insert (empty id)

end Thread

end Flowchart
