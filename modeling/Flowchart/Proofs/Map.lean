import Flowchart.Id
import Mathlib.Data.List.Induction
import Mathlib.Data.List.Nodup
import Mathlib.Data.Set.Function

/-!
# Finite maps

A finite map can be made of a list of entries. Of several entries for one key the last is in force.
If no key is listed twice, the entries of the map are those of the list, in whatever order they are
listed; and if the keys are listed in ascending order, the map lists them so too.

The keys of a finite map can be exchanged for others. Nothing is lost if different keys of the map
become different ones. The set `keys` below has the keys of all maps in question, so that one
exchange serves them all.

* `LastEntry`: an entry that is in force.
* `getElem?_ofList_eq_some_iff_last`, `getElem?_ofList_eq_some_iff`: what is found in a map made of
  entries.
* `ofList_toList`, `toList_ofList`, `keys_eq_of_mem_iff`: a map and the ascending list of its
  entries.
* `rekey`: the map with other keys.
* `getElem?_rekey_eq_some_iff`, `getElem?_rekey`: what is found in it.
* `rekey_insert`: insertion commutes with the exchange.
* `rekey_injective`, `toList_rekey_perm`: the entries are the same up to order.
-/

namespace Flowchart

variable {α β γ δ : Type} [Ord α] [Std.TransOrd α] [Std.LawfulEqOrd α] [Ord β] [Std.TransOrd β]
  [Std.LawfulEqOrd β] {f : α → β} {g : α → γ → δ} {m m' : Std.ExtTreeMap α γ} {keys : Set α}
  {a : α} {b : β} {c : γ} {d : δ}

/-! ### Maps and their entries -/

omit [Std.LawfulEqOrd α] in
theorem mem_of_getElem?_eq_some (h : m[a]? = some c) : a ∈ m := by
  rw [Std.ExtTreeMap.mem_iff_isSome_getElem?, h, Option.isSome_some]

/-- The entry is listed, and no entry for its key follows. -/
def LastEntry (entries : List (β × δ)) (b : β) (d : δ) : Prop :=
  ∃ before after, entries = before ++ (b, d) :: after ∧ b ∉ after.map Prod.fst

omit [Ord β] [Std.TransOrd β] [Std.LawfulEqOrd β] in
theorem lastEntry_concat {entries : List (β × δ)} {entry : β × δ} :
    LastEntry (entries ++ [entry]) b d ↔
      entry = (b, d) ∨ entry.1 ≠ b ∧ LastEntry entries b d := by
  constructor
  · rintro ⟨before, after, heq, hlast⟩
    rcases List.eq_nil_or_concat after with rfl | ⟨after, last, rfl⟩
    · exact .inl (List.singleton_inj.1 (List.append_inj' heq rfl).2)
    · have hsplit : entries ++ [entry] = (before ++ (b, d) :: after) ++ [last] := by
        rw [heq, List.concat_eq_append, List.append_assoc, List.cons_append]
      obtain ⟨rfl, hentry⟩ := List.append_inj' hsplit rfl
      obtain rfl := List.singleton_inj.1 hentry
      rw [List.concat_eq_append, List.map_append, List.mem_append, not_or] at hlast
      exact .inr ⟨fun h => hlast.2 (by simp [h]), before, after, rfl, hlast.1⟩
  · rintro (rfl | ⟨hne, before, after, rfl, hlast⟩)
    · exact ⟨entries, [], rfl, by simp⟩
    · refine ⟨before, after ++ [entry], by simp, ?_⟩
      rw [List.map_append, List.mem_append, not_or]
      exact ⟨hlast, by simp [Ne.symm hne]⟩

omit [Std.LawfulEqOrd β] in
theorem ofList_concat (entries : List (β × δ)) (entry : β × δ) :
    Std.ExtTreeMap.ofList (entries ++ [entry]) =
      (Std.ExtTreeMap.ofList entries).insert entry.1 entry.2 := by
  rw [Std.ExtTreeMap.ofList_eq_insertMany_empty, Std.ExtTreeMap.insertMany_append,
    Std.ExtTreeMap.insertMany_list_singleton, ← Std.ExtTreeMap.ofList_eq_insertMany_empty]

theorem getElem?_ofList_eq_some_iff_last {entries : List (β × δ)} :
    (Std.ExtTreeMap.ofList entries)[b]? = some d ↔ LastEntry entries b d := by
  induction entries using List.reverseRecOn with
  | nil => simp [LastEntry]
  | append_singleton entries entry ih =>
    rw [lastEntry_concat, ofList_concat, Std.ExtTreeMap.getElem?_insert]
    by_cases hb : entry.1 = b
    · subst hb
      simp [Prod.ext_iff]
    · simp [hb, ih, Prod.ext_iff]

theorem mem_toList_ofList_iff_last {entries : List (β × δ)} :
    (b, d) ∈ (Std.ExtTreeMap.ofList entries).toList ↔ LastEntry entries b d := by
  rw [Std.ExtTreeMap.mem_toList_iff_getElem?_eq_some, getElem?_ofList_eq_some_iff_last]

theorem mem_of_getElem?_ofList {entries : List (β × δ)}
    (h : (Std.ExtTreeMap.ofList entries)[b]? = some d) : (b, d) ∈ entries := by
  obtain ⟨before, after, rfl, -⟩ := getElem?_ofList_eq_some_iff_last.1 h
  exact List.mem_append_right before List.mem_cons_self

/-- If no key is listed twice, the entries listed are those of the map made of them. -/
theorem getElem?_ofList_eq_some_iff {entries : List (β × δ)} (h : (entries.map Prod.fst).Nodup) :
    (Std.ExtTreeMap.ofList entries)[b]? = some d ↔ (b, d) ∈ entries := by
  refine ⟨mem_of_getElem?_ofList, ?_⟩
  apply Std.ExtTreeMap.getElem?_ofList_of_mem Std.ReflCmp.compare_self
  refine (List.pairwise_map.1 h).imp ?_
  intro x y hne heq
  exact hne (Std.LawfulEqOrd.eq_of_compare heq)

omit [Std.LawfulEqOrd β] in
theorem nodup_map_fst_toList (m : Std.ExtTreeMap β δ) : (m.toList.map Prod.fst).Nodup := by
  rw [Std.ExtTreeMap.map_fst_toList_eq_keys]
  exact Std.ExtTreeMap.nodup_keys

/-- A map can be rebuilt from its entries. -/
theorem ofList_toList (m : Std.ExtTreeMap β δ) : Std.ExtTreeMap.ofList m.toList = m := by
  apply Std.ExtTreeMap.ext_getElem?
  intro b
  apply Option.ext
  intro d
  rw [getElem?_ofList_eq_some_iff (nodup_map_fst_toList m),
    Std.ExtTreeMap.mem_toList_iff_getElem?_eq_some]

/-- A map lists its entries as they were given, if these were in ascending order. -/
theorem toList_ofList {entries : List (β × δ)}
    (h : entries.Pairwise fun x y => compare x.1 y.1 = .lt) :
    (Std.ExtTreeMap.ofList entries).toList = entries := by
  have hne (x y : β × δ) (hlt : compare x.1 y.1 = .lt) : x.1 ≠ y.1 := by
    intro heq
    simp [heq] at hlt
  have hnodup : (entries.map Prod.fst).Nodup := List.pairwise_map.2 (h.imp (hne _ _))
  have hperm : (Std.ExtTreeMap.ofList entries).toList.Perm entries := by
    rw [List.perm_ext_iff_of_nodup (nodup_map_fst_toList _).of_map hnodup.of_map]
    rintro ⟨b, d⟩
    rw [Std.ExtTreeMap.mem_toList_iff_getElem?_eq_some, getElem?_ofList_eq_some_iff hnodup]
  -- Both lists are in ascending order, and there is one such list only.
  refine hperm.eq_of_pairwise ?_ Std.ExtTreeMap.ordered_keys_toList h
  intro x y _ _ hxy hyx
  rw [Std.OrientedCmp.gt_of_lt hxy] at hyx
  cases hyx

/-- Maps with the same keys list them in the same order. -/
theorem keys_eq_of_mem_iff {m : Std.ExtTreeMap β γ} {m' : Std.ExtTreeMap β δ}
    (h : ∀ b, b ∈ m ↔ b ∈ m') : m.keys = m'.keys := by
  have hperm : m.keys.Perm m'.keys := by
    rw [List.perm_ext_iff_of_nodup Std.ExtTreeMap.nodup_keys Std.ExtTreeMap.nodup_keys]
    intro b
    rw [Std.ExtTreeMap.mem_keys, Std.ExtTreeMap.mem_keys, h]
  refine hperm.eq_of_pairwise ?_ Std.ExtTreeMap.ordered_keys Std.ExtTreeMap.ordered_keys
  intro x y _ _ hxy hyx
  rw [Std.OrientedCmp.gt_of_lt hxy] at hyx
  cases hyx

/-! ### Changes that cancel out -/

theorem insert_of_getElem? {m : Std.ExtTreeMap β δ} (h : m[b]? = some d) : m.insert b d = m := by
  apply Std.ExtTreeMap.ext_getElem?
  intro k
  rw [Std.ExtTreeMap.getElem?_insert]
  by_cases hk : b = k
  · simp [← hk, h]
  · simp [hk]

theorem insert_insert (m : Std.ExtTreeMap β δ) (b : β) (d d' : δ) :
    (m.insert b d').insert b d = m.insert b d := by
  apply Std.ExtTreeMap.ext_getElem?
  intro k
  simp only [Std.ExtTreeMap.getElem?_insert]
  by_cases hk : b = k
  · simp [hk]
  · simp [hk]

theorem erase_insert_of_getElem? {m : Std.ExtTreeMap β δ} (h : m[b]? = none) (d : δ) :
    (m.insert b d).erase b = m := by
  apply Std.ExtTreeMap.ext_getElem?
  intro k
  rw [Std.ExtTreeMap.getElem?_erase, Std.ExtTreeMap.getElem?_insert]
  by_cases hk : b = k
  · simp [← hk, h]
  · simp [hk]

theorem insert_erase (m : Std.ExtTreeMap β δ) (b : β) (d : δ) :
    (m.erase b).insert b d = m.insert b d := by
  apply Std.ExtTreeMap.ext_getElem?
  intro k
  simp only [Std.ExtTreeMap.getElem?_insert, Std.ExtTreeMap.getElem?_erase]
  by_cases hk : b = k
  · simp [hk]
  · simp [hk]

/-! ### Maps with other keys -/

/-- The map with `f a` in place of each key `a`, and with the value that `g` makes of the one
there. -/
def rekey (f : α → β) (g : α → γ → δ) (m : Std.ExtTreeMap α γ) : Std.ExtTreeMap β δ :=
  .ofList (m.toList.map fun entry => (f entry.1, g entry.1 entry.2))

/-- Where there is a value in the map with other keys, it comes from an entry. -/
theorem exists_of_getElem?_rekey (h : (rekey f g m)[b]? = some d) :
    ∃ a c, m[a]? = some c ∧ f a = b ∧ g a c = d := by
  obtain ⟨⟨a, c⟩, hentry, heq⟩ := List.mem_map.1 (mem_of_getElem?_ofList h)
  obtain ⟨rfl, rfl⟩ := Prod.mk.inj heq
  exact ⟨a, c, Std.ExtTreeMap.mem_toList_iff_getElem?_eq_some.1 hentry, rfl, rfl⟩

variable (hf : Set.InjOn f keys) (hm : ∀ a ∈ m, a ∈ keys)

include hf hm

omit [Std.TransOrd β] in
theorem pairwise_rekey : (m.toList.map fun entry => (f entry.1, g entry.1 entry.2)).Pairwise
    fun x y => ¬ compare x.1 y.1 = .eq := by
  rw [List.pairwise_map]
  refine Std.ExtTreeMap.distinct_keys_toList.imp_of_mem ?_
  rintro ⟨i, x⟩ ⟨j, y⟩ hi hj hne heq
  have hkey (k : α) (z : γ) (hk : (k, z) ∈ m.toList) : k ∈ keys :=
    hm k (mem_of_getElem?_eq_some (Std.ExtTreeMap.mem_toList_iff_getElem?_eq_some.1 hk))
  have hij := hf (hkey i x hi) (hkey j y hj) (Std.LawfulEqOrd.eq_of_compare heq)
  exact hne (hij ▸ Std.ReflCmp.compare_self)

theorem getElem?_rekey_of_eq_some (h : m[a]? = some c) : (rekey f g m)[f a]? = some (g a c) :=
  Std.ExtTreeMap.getElem?_ofList_of_mem Std.ReflCmp.compare_self (pairwise_rekey hf hm)
    (List.mem_map.2 ⟨(a, c), Std.ExtTreeMap.mem_toList_iff_getElem?_eq_some.2 h, rfl⟩)

theorem getElem?_rekey_eq_some_iff :
    (rekey f g m)[b]? = some d ↔ ∃ a c, m[a]? = some c ∧ f a = b ∧ g a c = d := by
  constructor
  · exact exists_of_getElem?_rekey
  · rintro ⟨a, c, hc, rfl, rfl⟩
    exact getElem?_rekey_of_eq_some hf hm hc

theorem getElem?_rekey (ha : a ∈ keys) : (rekey f g m)[f a]? = m[a]?.map (g a) := by
  apply Option.ext
  intro d
  rw [getElem?_rekey_eq_some_iff hf hm, Option.map_eq_some_iff]
  constructor
  · rintro ⟨i, c, hc, heq, rfl⟩
    obtain rfl := hf (hm i (mem_of_getElem?_eq_some hc)) ha heq
    exact ⟨c, hc, rfl⟩
  · rintro ⟨c, hc, rfl⟩
    exact ⟨a, c, hc, rfl, rfl⟩

/-- What is put under a key is put under the other key. -/
theorem rekey_insert (ha : a ∈ keys) (c : γ) :
    rekey f g (m.insert a c) = (rekey f g m).insert (f a) (g a c) := by
  have hm' : ∀ i ∈ m.insert a c, i ∈ keys := by
    intro i hi
    rcases Std.ExtTreeMap.mem_insert.1 hi with heq | hi
    · exact Std.LawfulEqOrd.eq_of_compare heq ▸ ha
    · exact hm i hi
  apply Std.ExtTreeMap.ext_getElem?
  intro b
  apply Option.ext
  intro d
  rw [getElem?_rekey_eq_some_iff hf hm', Std.ExtTreeMap.getElem?_insert]
  by_cases hb : f a = b
  · subst hb
    rw [if_pos Std.ReflCmp.compare_self, Option.some.injEq]
    constructor
    · rintro ⟨i, x, hx, heq, rfl⟩
      obtain rfl := hf (hm' i (mem_of_getElem?_eq_some hx)) ha heq
      rw [Std.ExtTreeMap.getElem?_insert_self, Option.some.injEq] at hx
      rw [hx]
    · intro hd
      exact ⟨a, c, Std.ExtTreeMap.getElem?_insert_self, rfl, hd⟩
  · -- No key but `a` has the inserted value, and `a` does not become `b`.
    rw [if_neg fun heq => hb (Std.LawfulEqOrd.eq_of_compare heq), getElem?_rekey_eq_some_iff hf hm]
    refine exists_congr fun i => exists_congr fun x => and_congr_left ?_
    rintro ⟨rfl, -⟩
    have hne : ¬ compare a i = .eq := fun heq => hb (congrArg f (Std.LawfulEqOrd.eq_of_compare heq))
    rw [Std.ExtTreeMap.getElem?_insert, if_neg hne]

theorem getElem?_of_rekey_eq (hm' : ∀ a ∈ m', a ∈ keys)
    (hg : ∀ a c d, m[a]? = some c → m'[a]? = some d → g a c = g a d → c = d)
    (h : rekey f g m = rekey f g m') (hc : m[a]? = some c) : m'[a]? = some c := by
  have hrekey : (rekey f g m')[f a]? = some (g a c) := h ▸ getElem?_rekey_of_eq_some hf hm hc
  obtain ⟨i, x, hx, heq, hgx⟩ := exists_of_getElem?_rekey hrekey
  obtain rfl := hf (hm' i (mem_of_getElem?_eq_some hx)) (hm a (mem_of_getElem?_eq_some hc)) heq
  rw [hx, hg i c x hc hx hgx.symm]

theorem rekey_injective (hm' : ∀ a ∈ m', a ∈ keys)
    (hg : ∀ a c d, m[a]? = some c → m'[a]? = some d → g a c = g a d → c = d)
    (h : rekey f g m = rekey f g m') : m = m' := by
  apply Std.ExtTreeMap.ext_getElem?
  intro a
  apply Option.ext
  intro c
  constructor
  · exact getElem?_of_rekey_eq hf hm hm' hg h
  · refine getElem?_of_rekey_eq hf hm' hm ?_ h.symm
    intro a c d hc hd heq
    exact (hg a d c hd hc heq.symm).symm

theorem toList_rekey_perm : (rekey f g m).toList.Perm
    (m.toList.map fun entry => (f entry.1, g entry.1 entry.2)) := by
  have hne (x y : β × δ) (h : ¬ compare x.1 y.1 = .eq) : x ≠ y := by
    rintro rfl
    exact h Std.ReflCmp.compare_self
  rw [List.perm_ext_iff_of_nodup (Std.ExtTreeMap.distinct_keys_toList.imp (hne _ _))
    ((pairwise_rekey hf hm).imp (hne _ _))]
  rintro ⟨b, d⟩
  rw [Std.ExtTreeMap.mem_toList_iff_getElem?_eq_some, getElem?_rekey_eq_some_iff hf hm]
  simp [Std.ExtTreeMap.mem_toList_iff_getElem?_eq_some]

end Flowchart
