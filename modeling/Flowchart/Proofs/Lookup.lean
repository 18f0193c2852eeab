import Flowchart.Proofs.Canonical

/-!
# Look-up by halving

A sorted array of entries is searched for a key by halving the range of positions in which the key
can be. What is found is an entry whatever the order of the entries. Nothing is missed if they are
in strictly ascending order, since a comparison with the middle entry then settles on which side of
it the key is. A snapshot is searched so, and a state by its maps, and both give the same.

* `exists_of_bisectFrom`, `bisectFrom_of_sorted`: the search within a range of positions.
* `bisect_eq_some_iff`, `bisect_eq_none_iff`: the search of a whole array.
* `Snapshot.lookup_exact`: look-up in snapshots.
-/

namespace Flowchart

section Bisect

variable {κ ν : Type} [Ord κ] [Std.TransOrd κ] [Std.LawfulEqOrd κ] {entries : Array (κ × ν)}
  {key : κ} {v : ν} {x y : κ × ν} {lo hi i j : Nat}

/-- The entries are in strictly ascending order of their keys. -/
def Sorted (entries : Array (κ × ν)) : Prop :=
  entries.toList.Pairwise fun x y => compare x.1 y.1 = .lt

omit [Std.TransOrd κ] [Std.LawfulEqOrd κ] in
theorem Sorted.compare_of_lt (h : Sorted entries) (hij : i < j) (hx : entries[i]? = some x)
    (hy : entries[j]? = some y) : compare x.1 y.1 = .lt := by
  obtain ⟨hi, rfl⟩ := Array.getElem?_eq_some_iff.1 hx
  obtain ⟨hj, rfl⟩ := Array.getElem?_eq_some_iff.1 hy
  exact List.pairwise_iff_getElem.1 h i j hi hj hij

/-- A key that is smaller stands further to the left. -/
theorem Sorted.lt_of_compare (h : Sorted entries) (hx : entries[i]? = some x)
    (hy : entries[j]? = some y) (hxy : compare x.1 y.1 = .lt) : i < j := by
  rcases Nat.lt_trichotomy i j with hlt | rfl | hgt
  · exact hlt
  · obtain rfl : x = y := Option.some.inj (hx.symm.trans hy)
    rw [Std.ReflOrd.compare_self] at hxy
    cases hxy
  · rw [Std.OrientedCmp.gt_of_lt (h.compare_of_lt hgt hy hx)] at hxy
    cases hxy

omit [Std.TransOrd κ] in
/-- There is one entry at most for a key. -/
theorem Sorted.eq_of_fst_eq (h : Sorted entries) (hx : entries[i]? = some x)
    (hy : entries[j]? = some y) (hxy : x.1 = y.1) : x = y := by
  have hne {a b : Nat} {z z' : κ × ν} (hz : entries[a]? = some z) (hz' : entries[b]? = some z')
      (heq : z.1 = z'.1) : ¬ a < b := by
    intro hab
    have hlt := h.compare_of_lt hab hz hz'
    rw [heq, Std.ReflOrd.compare_self] at hlt
    cases hlt
  obtain rfl : i = j := Nat.le_antisymm (Nat.le_of_not_lt (hne hy hx hxy.symm))
    (Nat.le_of_not_lt (hne hx hy hxy))
  exact Option.some.inj (hx.symm.trans hy)

omit [Std.TransOrd κ] in
/-- What is found is an entry for the key within the range. -/
theorem exists_of_bisectFrom {h : hi ≤ entries.size}
    (hv : bisectFrom entries key lo hi h = some v) :
    ∃ i, lo ≤ i ∧ i < hi ∧ entries[i]? = some (key, v) := by
  fun_induction bisectFrom entries key lo hi h with
  | case1 lo hi h hlt mid hmid entry hcompare ih =>
    obtain ⟨i, hlo, hhi, hi⟩ := ih hv
    exact ⟨i, hlo, by omega, hi⟩
  | case2 lo hi h hlt mid hmid entry hcompare =>
    have hentry : entry = (key, v) :=
      Prod.ext (Std.LawfulEqOrd.eq_of_compare hcompare).symm (Option.some.inj hv)
    exact ⟨mid, by omega, by omega, Array.getElem?_eq_some_iff.2 ⟨hmid, hentry⟩⟩
  | case3 lo hi h hlt mid hmid entry hcompare ih =>
    obtain ⟨i, hlo, hhi, hi⟩ := ih hv
    exact ⟨i, by omega, hhi, hi⟩
  | case4 => cases hv

/-- An entry within the range is found if the entries are in order. -/
theorem bisectFrom_of_sorted {h : hi ≤ entries.size} (hs : Sorted entries)
    (hkey : entries[i]? = some (key, v)) (hlo : lo ≤ i) (hhi : i < hi) :
    bisectFrom entries key lo hi h = some v := by
  fun_induction bisectFrom entries key lo hi h with
  | case1 lo hi h hlt mid hmid entry hcompare ih =>
    have hleft : i < mid := hs.lt_of_compare hkey (Array.getElem?_eq_getElem hmid) hcompare
    exact ih hlo hleft
  | case2 lo hi h hlt mid hmid entry hcompare =>
    have hentry : (key, v) = entry := hs.eq_of_fst_eq hkey (Array.getElem?_eq_getElem hmid)
      (Std.LawfulEqOrd.eq_of_compare hcompare)
    rw [← hentry]
  | case3 lo hi h hlt mid hmid entry hcompare ih =>
    have hright : mid < i := hs.lt_of_compare (Array.getElem?_eq_getElem hmid) hkey
      (Std.OrientedCmp.lt_of_gt hcompare)
    exact ih hright hhi
  | case4 => omega

theorem bisect_eq_some_iff (hs : Sorted entries) :
    bisect entries key = some v ↔ (key, v) ∈ entries.toList := by
  rw [Array.mem_toList_iff, Array.mem_iff_getElem?, bisect]
  constructor
  · intro hv
    obtain ⟨i, -, -, hi⟩ := exists_of_bisectFrom hv
    exact ⟨i, hi⟩
  · rintro ⟨i, hi⟩
    have hlt : i < entries.size := (Array.getElem?_eq_some_iff.1 hi).1
    exact bisectFrom_of_sorted hs hi (Nat.zero_le i) hlt

theorem bisect_eq_none_iff (hs : Sorted entries) :
    bisect entries key = none ↔ key ∉ entries.toList.map Prod.fst := by
  simp [Option.eq_none_iff_forall_ne_some, bisect_eq_some_iff hs]

/-- What is found belongs to the only entry that the key has. -/
theorem filter_of_bisect [DecidableEq κ] (hs : Sorted entries) (hv : bisect entries key = some v) :
    entries.toList.filter (·.1 = key) = [(key, v)] := by
  obtain ⟨before, after, hsplit⟩ := List.append_of_mem ((bisect_eq_some_iff hs).1 hv)
  have hkeys : (entries.toList.map Prod.fst).Nodup := by
    refine List.pairwise_map.2 (hs.imp ?_)
    intro x y hlt heq
    simp [heq] at hlt
  rw [hsplit, List.map_append, List.map_cons, List.nodup_middle, List.nodup_cons, ← List.map_append,
    List.mem_map, not_exists] at hkeys
  have hothers : (before ++ after).filter (·.1 = key) = [] := by
    rw [List.filter_eq_nil_iff]
    intro x hx hfst
    exact hkeys.1 x ⟨hx, of_decide_eq_true hfst⟩
  rw [List.filter_append, List.append_eq_nil_iff] at hothers
  simp [hsplit, hothers]

/-- The ascending entries of a map are searched with the same result as the map. -/
theorem bisect_toList (m : Std.ExtTreeMap κ ν) (key : κ) :
    bisect m.toList.toArray key = m[key]? := by
  have hs : Sorted m.toList.toArray := Std.ExtTreeMap.ordered_keys_toList
  apply Option.ext
  intro v
  rw [bisect_eq_some_iff hs, Std.ExtTreeMap.mem_toList_iff_getElem?_eq_some]

end Bisect

namespace State

theorem get_snapshot (s : State) (name : String) : s.snapshot.get name = s.get name := by
  rw [Snapshot.get, snapshot, bisect_toList, get, Std.ExtTreeMap.getD_eq_getD_getElem?]

theorem counter?_snapshot (s : State) (t : ThreadId) : s.snapshot.counter? t = s.counter? t := by
  rw [Snapshot.counter?, snapshot, bisect_toList, counter?]

end State

namespace Snapshot

variable {g : Snapshot}

theorem Ascending.get_cases (h : g.Ascending) (name : String) :
    (∃ v, g.store.toList.filter (·.1 = name) = [(name, v)] ∧ g.get name = v) ∨
      name ∉ g.store.toList.map Prod.fst ∧ g.get name = 0 := by
  have hs : Sorted g.store := (ascending_iff.1 h).2
  cases hv : bisect g.store name with
  | none => exact .inr ⟨(bisect_eq_none_iff hs).1 hv, by rw [get, hv, Option.getD_none]⟩
  | some v => exact .inl ⟨v, filter_of_bisect hs hv, by rw [get, hv, Option.getD_some]⟩

theorem Ascending.counter?_cases (h : g.Ascending) (t : ThreadId) :
    (∃ c, g.counters.toList.filter (·.1 = t) = [(t, c)] ∧ g.counter? t = c) ∨
      t ∉ g.counters.toList.map Prod.fst ∧ g.counter? t = none := by
  have hs : Sorted g.counters := (ascending_iff.1 h).1
  cases hc : bisect g.counters t with
  | none => exact .inr ⟨(bisect_eq_none_iff hs).1 hc, by rw [counter?, hc, Option.join_none]⟩
  | some c => exact .inl ⟨c, filter_of_bisect hs hc, by rw [counter?, hc, Option.join_some]⟩

/-- **Look-up by halving agrees with the maps.** In the snapshot of a state every name and every
thread is found with what it has in the state. In any snapshot with ascending entries, threads by
number and variables by the bytes of their names, a name or thread that is listed has one entry,
whose value is found. A name that is not listed reads as zero, and a thread that is not listed has
no counter. -/
theorem lookup_exact :
    (∀ (s : State) (name : String), s.snapshot.get name = s.get name) ∧
    (∀ (s : State) (t : ThreadId), s.snapshot.counter? t = s.counter? t) ∧
    ∀ g : Snapshot, g.Ascending →
      (∀ name, (∃ v, g.store.toList.filter (·.1 = name) = [(name, v)] ∧ g.get name = v) ∨
        name ∉ g.store.toList.map Prod.fst ∧ g.get name = 0) ∧
      ∀ t, (∃ c, g.counters.toList.filter (·.1 = t) = [(t, c)] ∧ g.counter? t = c) ∨
        t ∉ g.counters.toList.map Prod.fst ∧ g.counter? t = none := by
  refine ⟨State.get_snapshot, State.counter?_snapshot, ?_⟩
  intro g h
  exact ⟨h.get_cases, h.counter?_cases⟩

/-- The last name of a list, a name that is missing from it, and a thread. -/
theorem lookup_of_wide_names :
    let g : Snapshot :=
      ⟨#[(⟨1⟩, some ⟨4⟩), (⟨7⟩, none)], #[("", 2), ("a", 5), ("ﬀ", 3), ("😀", 1)], [], [], 0⟩
    g.Ascending ∧ g.get "😀" = 1 ∧ g.get "b" = 0 ∧ g.counter? ⟨1⟩ = some ⟨4⟩ := by
  intro g
  have hasc : g.Ascending := by
    rw [← snapshot_restore_eq_iff]
    decide +kernel
  obtain ⟨-, -, hlookup⟩ := lookup_exact
  obtain ⟨hget, hcounter⟩ := hlookup g hasc
  refine ⟨hasc, ?_, ?_, ?_⟩
  · obtain ⟨v, hv, hget⟩ := (hget "😀").resolve_right (by decide +kernel)
    have hentry : g.store.toList.filter (·.1 = "😀") = [("😀", 1)] := by decide +kernel
    rw [hentry] at hv
    cases hv
    exact hget
  · rcases hget "b" with ⟨v, hv, -⟩ | ⟨-, hget⟩
    · have hentry : g.store.toList.filter (·.1 = "b") = [] := by decide +kernel
      rw [hentry] at hv
      cases hv
    · exact hget
  · obtain ⟨c, hc, hcounter⟩ := (hcounter ⟨1⟩).resolve_right (by decide +kernel)
    have hentry : g.counters.toList.filter (·.1 = ⟨1⟩) = [(⟨1⟩, some ⟨4⟩)] := by decide +kernel
    rw [hentry] at hc
    cases hc
    exact hcounter

end Snapshot

end Flowchart
