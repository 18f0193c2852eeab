import Flowchart.State.Basic

/-!
# An order on states

Exploration keeps the states it has met in ordered maps, which need a comparison of states. Any
lawful one will do. The cheap parts of a state are compared first, and the maps by their sorted
entries.
-/

namespace Flowchart

open Std

/-- Compare two entries of a map, the keys before the values. -/
def compareEntry {κ ν : Type} [Ord κ] [Ord ν] (a b : κ × ν) : Ordering :=
  compareLex (compareOn Prod.fst) (compareOn Prod.snd) a b

instance {κ ν : Type} [Ord κ] [Ord ν] [TransOrd κ] [TransOrd ν] :
    TransCmp (@compareEntry κ ν _ _) :=
  inferInstanceAs (TransCmp (compareLex (compareOn Prod.fst) (compareOn Prod.snd)))

instance {κ ν : Type} [Ord κ] [Ord ν] [LawfulEqOrd κ] [LawfulEqOrd ν] :
    LawfulEqCmp (@compareEntry κ ν _ _) where
  compare_self := by simp [compareEntry, compareLex, compareOn]
  eq_of_compare h := by
    simp only [compareEntry, compareLex, compareOn, Ordering.then_eq_eq, Std.compare_eq_iff_eq] at h
    exact Prod.ext h.1 h.2

/-- A comparison of images under a function inherits the laws of an order. -/
theorem transCmp_image {α β : Type} {cmp : β → β → Ordering} [TransCmp cmp] (f : α → β) :
    TransCmp fun a b => cmp (f a) (f b) where
  eq_swap := OrientedCmp.eq_swap
  isLE_trans := TransCmp.isLE_trans

namespace State

/-- Compare the counters of two states. -/
def compareCounters (s t : State) : Ordering :=
  List.compareLex compareEntry s.counters.toList t.counters.toList

/-- Compare the variables of two states. -/
def compareStores (s t : State) : Ordering :=
  List.compareLex compareEntry s.store.toList t.store.toList

instance : TransCmp compareCounters :=
  transCmp_image (fun s : State => s.counters.toList)

instance : TransCmp compareStores :=
  transCmp_image (fun s : State => s.store.toList)

theorem compareCounters_eq_eq {s t : State} :
    compareCounters s t = .eq ↔ s.counters = t.counters := by
  constructor
  · intro h
    rw [compareCounters, LawfulEqCmp.compare_eq_iff_eq] at h
    exact ExtTreeMap.ext_toList (h ▸ .refl _)
  · intro h
    rw [compareCounters, LawfulEqCmp.compare_eq_iff_eq, h]

theorem compareStores_eq_eq {s t : State} :
    compareStores s t = .eq ↔ s.store = t.store := by
  constructor
  · intro h
    rw [compareStores, LawfulEqCmp.compare_eq_iff_eq] at h
    exact ExtTreeMap.ext_toList (h ▸ .refl _)
  · intro h
    rw [compareStores, LawfulEqCmp.compare_eq_iff_eq, h]

instance : Ord State where
  compare := compareLex (compareOn depth) <| compareLex (compareOn output) <|
    compareLex (compareOn input) <| compareLex compareCounters compareStores

theorem compare_eq_then (s t : State) :
    compare s t = (compare s.depth t.depth).then ((compare s.output t.output).then
      ((compare s.input t.input).then ((compareCounters s t).then (compareStores s t)))) :=
  rfl

instance : TransOrd State :=
  inferInstanceAs (TransCmp (compareLex (compareOn depth) <| compareLex (compareOn output) <|
    compareLex (compareOn input) <| compareLex compareCounters compareStores))

instance : LawfulEqOrd State where
  compare_self {s} := ReflCmp.compare_self
  eq_of_compare {s t} h := by
    simp only [compare_eq_then, Ordering.then_eq_eq] at h
    obtain ⟨hd, ho, hi, hc, hs⟩ := h
    cases s
    cases t
    rw [State.mk.injEq]
    exact ⟨compareCounters_eq_eq.1 hc, compareStores_eq_eq.1 hs, LawfulEqOrd.eq_of_compare hi,
      LawfulEqOrd.eq_of_compare ho, LawfulEqOrd.eq_of_compare hd⟩

end State

end Flowchart
