import Flowchart.Proofs.Map
import Flowchart.Proofs.NameOrder
import Flowchart.Proofs.Shortlex
import Flowchart.Schedule

/-!
# Snapshots as canonical forms

A snapshot taken of a state lists each key once and in order, so nothing is lost: the state can be
restored from it, and the snapshot answers for the state. States are compared by their snapshots, so
a snapshot must not depend on how its state came about. Of all lists of entries that describe a
state, the snapshot has the one that is in ascending order, threads by number and variables by the
bytes of their names.

## Main definitions

* `Snapshot.Ascending`: the entries are in strictly ascending order of their keys.

## Main results

* `Snapshot.snapshot_restore_eq_iff`: the snapshots that are their own canonical forms.
* `Snapshot.canonical`: writing down and reading back.
-/

namespace Flowchart

namespace State

@[simp]
theorem restore_snapshot (s : State) : s.snapshot.restore = s := by
  simp only [Snapshot.restore, snapshot, ofList_toList]

theorem snapshot_injective : Function.Injective snapshot :=
  Function.LeftInverse.injective restore_snapshot

@[simp]
theorem isComplete_snapshot (s : State) : s.snapshot.isComplete = s.isComplete :=
  rfl

@[simp]
theorem runnable_snapshot (p : Program) (s : State) : s.snapshot.runnable p = s.runnable p :=
  rfl

end State

namespace Snapshot

variable {g : Snapshot}

/-- The threads are listed in ascending order of their numbers and the variables in ascending order
of the bytes of their names, each once. -/
structure Ascending (g : Snapshot) : Prop where
  counters : (g.counters.toList.map Prod.fst).Pairwise (· < ·)
  store : (g.store.toList.map fun entry => utf8 entry.1).Pairwise (· < ·)

theorem ascending_iff :
    g.Ascending ↔ (g.counters.toList.Pairwise fun x y => compare x.1 y.1 = .lt) ∧
      g.store.toList.Pairwise fun x y => compare x.1 y.1 = .lt := by
  simp only [ThreadId.compare_eq_lt_iff, compare_eq_lt_iff_utf8]
  constructor
  · rintro ⟨hcounters, hstore⟩
    exact ⟨List.pairwise_map.1 hcounters, List.pairwise_map.1 hstore⟩
  · rintro ⟨hcounters, hstore⟩
    exact ⟨List.pairwise_map.2 hcounters, List.pairwise_map.2 hstore⟩

theorem ascending_snapshot (s : State) : s.snapshot.Ascending :=
  ascending_iff.2 ⟨Std.ExtTreeMap.ordered_keys_toList, Std.ExtTreeMap.ordered_keys_toList⟩

/-- Reading a snapshot and writing it down again gives the same snapshot if its entries were in
order, and only then. -/
theorem snapshot_restore_eq_iff : g.restore.snapshot = g ↔ g.Ascending := by
  constructor
  · intro h
    rw [← h]
    exact ascending_snapshot g.restore
  · intro h
    obtain ⟨hcounters, hstore⟩ := ascending_iff.1 h
    simp only [State.snapshot, restore, toList_ofList hcounters, toList_ofList hstore]

end Snapshot

/-- Snapshots are the same exactly if every thread is at the same place, every variable has the same
value or none, and the input, the output and the number of steps are the same. -/
theorem State.snapshot_eq_iff {s s' : State} :
    s.snapshot = s'.snapshot ↔
      (∀ t : ThreadId, s.counters[t]? = s'.counters[t]?) ∧
      (∀ name : String, s.store[name]? = s'.store[name]?) ∧
      s.input = s'.input ∧ s.output = s'.output ∧ s.depth = s'.depth := by
  rw [snapshot_injective.eq_iff]
  constructor
  · rintro rfl
    exact ⟨fun _ => rfl, fun _ => rfl, rfl, rfl, rfl⟩
  · rintro ⟨hcounters, hstore, hinput, houtput, hdepth⟩
    exact State.ext (Std.ExtTreeMap.ext_getElem? hcounters) (Std.ExtTreeMap.ext_getElem? hstore)
      hinput houtput hdepth

namespace Snapshot

/-- Entries given in different orders, with different entries in between that are overwritten, give
the same snapshot exactly if the last entries are the same. -/
theorem snapshot_restore_eq_snapshot_restore_iff {g g' : Snapshot} :
    g.restore.snapshot = g'.restore.snapshot ↔
      (∀ t c, LastEntry g.counters.toList t c ↔ LastEntry g'.counters.toList t c) ∧
      (∀ name v, LastEntry g.store.toList name v ↔ LastEntry g'.store.toList name v) ∧
      g.input = g'.input ∧ g.output = g'.output ∧ g.depth = g'.depth := by
  simp only [State.snapshot_eq_iff, ← getElem?_ofList_eq_some_iff_last, ← Option.ext_iff]
  rfl

/-- **Snapshots are canonical forms of states.** A snapshot of a state has its entries in ascending
order, and the state can be restored from it. Two states have the same snapshot exactly if they are
the same as maps, with the same input, output and number of steps. Entries may be given in any
order: each key keeps its last entry, and the snapshot depends on these entries only. It is the list
that was given if that list was in ascending order, and only then. -/
theorem canonical :
    (∀ s : State, s.snapshot.Ascending ∧ s.snapshot.restore = s) ∧
    (∀ s s' : State, s.snapshot = s'.snapshot ↔
      (∀ t : ThreadId, s.counters[t]? = s'.counters[t]?) ∧
      (∀ name : String, s.store[name]? = s'.store[name]?) ∧
      s.input = s'.input ∧ s.output = s'.output ∧ s.depth = s'.depth) ∧
    (∀ g g' : Snapshot, g.restore.snapshot = g'.restore.snapshot ↔
      (∀ t c, LastEntry g.counters.toList t c ↔ LastEntry g'.counters.toList t c) ∧
      (∀ name v, LastEntry g.store.toList name v ↔ LastEntry g'.store.toList name v) ∧
      g.input = g'.input ∧ g.output = g'.output ∧ g.depth = g'.depth) ∧
    ∀ g : Snapshot, (g.restore.snapshot = g ↔ g.Ascending) ∧
      (∀ t c, (t, c) ∈ g.restore.snapshot.counters.toList ↔ LastEntry g.counters.toList t c) ∧
      ∀ name v, (name, v) ∈ g.restore.snapshot.store.toList ↔ LastEntry g.store.toList name v := by
  refine ⟨?_, ?_, ?_, ?_⟩
  · exact fun s => ⟨ascending_snapshot s, s.restore_snapshot⟩
  · exact fun s s' => State.snapshot_eq_iff
  · exact fun g g' => snapshot_restore_eq_snapshot_restore_iff
  · intro g
    refine ⟨snapshot_restore_eq_iff, ?_, ?_⟩
    · exact fun t c => mem_toList_ofList_iff_last
    · exact fun name v => mem_toList_ofList_iff_last

-- By units of 16 bits the last two names would stand the other way round.
example : (Snapshot.mk #[(⟨2⟩, none), (⟨1⟩, some ⟨4⟩), (⟨2⟩, some ⟨0⟩)]
    #[("😀", 1), ("a", 2), ("ﬀ", 3), ("a", 5)] [] [] 0).restore.snapshot =
    ⟨#[(⟨1⟩, some ⟨4⟩), (⟨2⟩, some ⟨0⟩)], #[("a", 5), ("ﬀ", 3), ("😀", 1)], [], [], 0⟩ := by
  decide +kernel

end Snapshot

end Flowchart
