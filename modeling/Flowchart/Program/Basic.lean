import Flowchart.Thread

/-!
# Programs

A program is a finite set of threads, each filed under its own number, together with the list of
the shared variables that were declared. Declaring a variable again changes nothing, so the list is
free of repetitions and in order of first declaration.
-/

namespace Flowchart

/-- A concurrent program. It does not change while it is executed or explored. -/
structure Program where
  /-- A name for people. -/
  name : String
  /-- The threads by number. -/
  threads : Std.ExtTreeMap ThreadId Thread
  /-- The declared variables in order of first declaration. -/
  declared : List String
  /-- Every thread is filed under its own number. -/
  filed : ∀ (i : ThreadId) (t : Thread), threads[i]? = some t → t.id = i
  /-- No variable is listed twice. -/
  declared_nodup : declared.Nodup
  deriving DecidableEq

namespace Program

/-- A program without threads and variables. -/
def empty (name : String) : Program where
  name := name
  threads := ∅
  declared := []
  filed := by simp
  declared_nodup := List.nodup_nil

/-- The thread with a given number. -/
def thread? (p : Program) (i : ThreadId) : Option Thread :=
  p.threads[i]?

/-- The numbers of the threads in ascending order. -/
def threadIds (p : Program) : List ThreadId :=
  p.threads.keys

/-- The threads in ascending order of their numbers. -/
def threadList (p : Program) : List Thread :=
  p.threads.values

/-- The number of threads. -/
def size (p : Program) : Nat :=
  p.threads.size

/-- The block numbered `b` of the thread numbered `i`. -/
def block? (p : Program) (i : ThreadId) (b : BlockId) : Option Block :=
  (p.thread? i).bind (·.block? b)

theorem threadList_eq_map_toList (p : Program) : p.threadList = p.threads.toList.map Prod.snd := by
  have hfold : p.threadList = p.threads.foldr (fun _ t ts => t :: ts) [] := rfl
  rw [hfold, Std.ExtTreeMap.foldr_eq_foldr_toList]
  exact List.map_eq_foldr.symm

theorem mem_threadList {p : Program} {t : Thread} :
    t ∈ p.threadList ↔ p.thread? t.id = some t := by
  simp only [threadList_eq_map_toList, List.mem_map, Prod.exists,
    Std.ExtTreeMap.mem_toList_iff_getElem?_eq_some]
  constructor
  · rintro ⟨i, u, hu, rfl⟩
    rwa [p.filed i u hu]
  · intro h
    exact ⟨t.id, t, h, rfl⟩

theorem map_id_threadList (p : Program) : p.threadList.map Thread.id = p.threadIds := by
  rw [threadList_eq_map_toList, List.map_map, threadIds, ← Std.ExtTreeMap.map_fst_toList_eq_keys]
  apply List.map_congr_left
  intro entry hentry
  exact p.filed _ _ (Std.ExtTreeMap.mem_toList_iff_getElem?_eq_some.1 hentry)

theorem block?_eq_some_iff {p : Program} {i : ThreadId} {j : BlockId} {b : Block} :
    p.block? i j = some b ↔ ∃ t ∈ p.threadList, t.id = i ∧ b ∈ t.blocks ∧ b.id = j := by
  simp only [block?, Option.bind_eq_some_iff, Thread.block?_eq_some_iff]
  constructor
  · rintro ⟨t, ht, hb⟩
    have hid : t.id = i := p.filed i t ht
    exact ⟨t, mem_threadList.2 (hid ▸ ht), hid, hb⟩
  · rintro ⟨t, ht, rfl, hb⟩
    exact ⟨t, mem_threadList.1 ht, hb⟩

/-- Whether a variable is declared. -/
def declares (p : Program) (name : String) : Bool :=
  p.declared.contains name

theorem nodup_append_of_not_declares {p : Program} {name : String} (h : ¬ p.declares name) :
    (p.declared ++ [name]).Nodup := by
  rw [declares, List.contains_iff_mem] at h
  refine List.nodup_append.2 ⟨p.declared_nodup, by simp, ?_⟩
  intro a ha b hb
  rw [List.mem_singleton] at hb
  subst hb
  exact fun hab => h (hab ▸ ha)

/-- Declare a variable, once. -/
def declare (p : Program) (name : String) : Program :=
  if h : p.declares name then p
  else { p with
    declared := p.declared ++ [name]
    declared_nodup := nodup_append_of_not_declares h }

theorem filed_insert (p : Program) (t : Thread) (i : ThreadId) (u : Thread)
    (h : (p.threads.insert t.id t)[i]? = some u) : u.id = i := by
  rw [Std.ExtTreeMap.getElem?_insert] at h
  split at h
  next heq =>
    rw [Option.some.injEq] at h
    exact h ▸ Std.LawfulEqOrd.eq_of_compare heq
  next => exact p.filed i u h

/-- Add a thread under its number, which must be free. -/
def attach (p : Program) (t : Thread) : Except EditError Program :=
  if t.id ∈ p.threads then .error (.duplicateThread t.id)
  else .ok { p with threads := p.threads.insert t.id t, filed := p.filed_insert t }

theorem filed_erase (p : Program) (k i : ThreadId) (u : Thread)
    (h : (p.threads.erase k)[i]? = some u) : u.id = i := by
  rw [Std.ExtTreeMap.getElem?_erase] at h
  split at h
  next => cases h
  next => exact p.filed i u h

/-- The program without the thread numbered `i`, and that thread. -/
def detach (p : Program) (i : ThreadId) : Program × Option Thread :=
  ({ p with threads := p.threads.erase i, filed := p.filed_erase i }, p.thread? i)

end Program

end Flowchart
