import Flowchart.Id
import Mathlib.Tactic.SplitIfs

/-!
# The order of names

Names are compared character by character, and variables are listed in this order. It is the order
of the bytes that the names are written with in UTF-8: the first byte of a character grows with the
number of bytes, and among characters of one size the bytes are digits, the highest first.

* `utf8`: the bytes of a text.
* `partsBelow_utf8EncodeChar`: the bytes of a smaller character part from those of a greater one,
  and are smaller there.
* `compare_eq_lt_iff_utf8`: the order of names is that of their bytes.
-/

namespace Flowchart

/-- The bytes of a text in UTF-8. -/
def utf8 (s : String) : List UInt8 :=
  s.toUTF8.data.toList

/-! ### Where two lists of bytes part -/

/-- The lists part at some place, and the first one has the smaller byte there. -/
def PartsBelow : List UInt8 → List UInt8 → Prop
  | a :: l, b :: m => a < b ∨ a = b ∧ PartsBelow l m
  | _, _ => False

namespace PartsBelow

variable {l m : List UInt8}

theorem append (h : PartsBelow l m) (x y : List UInt8) : PartsBelow (l ++ x) (m ++ y) := by
  fun_induction PartsBelow l m with
  | case1 a l b m ih =>
    rcases h with hlt | ⟨heq, h⟩
    · exact .inl hlt
    · exact .inr ⟨heq, ih h⟩
  | case2 => exact h.elim

theorem append_left (h : PartsBelow l m) (x : List UInt8) : PartsBelow (x ++ l) (x ++ m) := by
  induction x with
  | nil => exact h
  | cons a x ih => exact .inr ⟨rfl, ih⟩

theorem lt (h : PartsBelow l m) : l < m := by
  fun_induction PartsBelow l m with
  | case1 a l b m ih =>
    rw [List.cons_lt_cons_iff]
    rcases h with hlt | ⟨heq, h⟩
    · exact .inl hlt
    · exact .inr ⟨heq, ih h⟩
  | case2 => exact h.elim

end PartsBelow

/-! ### The bytes of a character -/

section Encoding

variable {v w : Nat}

/-- A number written with `k` bytes of six bits each after a first byte, which has the rest of the
number and the mark of the size. -/
def encoded (mark : Nat) : Nat → Nat → List UInt8
  | 0, v => [UInt8.ofNat (mark + v)]
  | k + 1, v => encoded mark k (v / 64) ++ [UInt8.ofNat (v % 64 + 128)]

/-- The first byte of a number so written, as a number. -/
def lead (mark : Nat) : Nat → Nat → Nat
  | 0, v => mark + v
  | k + 1, v => lead mark k (v / 64)

/-- The number of bytes that follow the first one in the encoding of a character. -/
def following (v : Nat) : Nat :=
  if v ≤ 127 then 0 else if v ≤ 2047 then 1 else if v ≤ 65535 then 2 else 3

/-- The mark of a size in the first byte. -/
def sizeMark : Nat → Nat
  | 0 => 0
  | 1 => 192
  | 2 => 224
  | _ => 240

theorem exists_encoded_eq_cons (mark k v : Nat) :
    ∃ rest, encoded mark k v = UInt8.ofNat (lead mark k v) :: rest := by
  induction k generalizing v with
  | zero => exact ⟨[], rfl⟩
  | succ k ih =>
    obtain ⟨rest, hrest⟩ := ih (v / 64)
    exact ⟨rest ++ [UInt8.ofNat (v % 64 + 128)], by rw [encoded, hrest]; rfl⟩

/-- Numbers written with the same number of bytes are ordered by their bytes. -/
theorem partsBelow_encoded {mark k : Nat} (hlt : v < w) (hlead : lead mark k w < 256) :
    PartsBelow (encoded mark k v) (encoded mark k w) := by
  induction k generalizing v w with
  | zero =>
    have hw : mark + w < 256 := hlead
    exact .inl ((UInt8.ofNat_lt_iff_lt (show mark + v < 256 by omega) hw).2 (by omega))
  | succ k ih =>
    by_cases hhigh : v / 64 < w / 64
    · exact (ih hhigh hlead).append _ _
    · -- The high digits are the same, and the last one decides.
      have hsame : v / 64 = w / 64 := by omega
      rw [encoded, encoded, hsame]
      apply PartsBelow.append_left
      exact .inl ((UInt8.ofNat_lt_iff_lt (show v % 64 + 128 < 256 by omega)
        (show w % 64 + 128 < 256 by omega)).2 (by omega))

theorem lead_following_lt (hv : v < 1114112) :
    lead (sizeMark (following v)) (following v) v < 256 := by
  unfold following
  split_ifs
  · show 0 + v < 256
    omega
  · show 192 + v / 64 < 256
    omega
  · show 224 + v / 64 / 64 < 256
    omega
  · show 240 + v / 64 / 64 / 64 < 256
    omega

theorem following_mono (hlt : v < w) : following v ≤ following w := by
  unfold following
  split_ifs <;> omega

/-- The more bytes follow, the greater is the first byte. -/
theorem lead_lt_lead (hsize : following v < following w) :
    lead (sizeMark (following v)) (following v) v <
      lead (sizeMark (following w)) (following w) w := by
  unfold following at hsize ⊢
  split_ifs at hsize ⊢ <;> simp only [sizeMark, lead] <;> omega

theorem toNat_val_lt (c : Char) : c.val.toNat < 1114112 := by
  rcases c.valid with hlow | ⟨-, hhigh⟩
  · omega
  · exact hhigh

theorem utf8EncodeChar_eq_encoded (c : Char) :
    String.utf8EncodeChar c =
      encoded (sizeMark (following c.val.toNat)) (following c.val.toNat) c.val.toNat := by
  have hvalid := toNat_val_lt c
  simp only [String.utf8EncodeChar, following]
  generalize c.val.toNat = v at hvalid
  split_ifs
  · simp [encoded, sizeMark]
  · have hfirst : v / 64 % 32 + 192 = 192 + v / 64 := by omega
    simp [encoded, sizeMark, hfirst]
  · have hfirst : v / 4096 % 16 + 224 = 224 + v / 64 / 64 := by omega
    simp [encoded, sizeMark, hfirst]
  · have hfirst : v / 262144 % 8 + 240 = 240 + v / 64 / 64 / 64 := by omega
    have hsecond : v / 4096 % 64 = v / 64 / 64 % 64 := by omega
    simp [encoded, sizeMark, hfirst, hsecond]

/-- The bytes of a smaller character part from those of a greater one, at a smaller byte. -/
theorem partsBelow_utf8EncodeChar {c d : Char} (h : c < d) :
    PartsBelow (String.utf8EncodeChar c) (String.utf8EncodeChar d) := by
  have hlt : c.val.toNat < d.val.toNat := h
  have hlead := lead_following_lt (toNat_val_lt d)
  rw [utf8EncodeChar_eq_encoded, utf8EncodeChar_eq_encoded]
  rcases Nat.eq_or_lt_of_le (following_mono hlt) with hsame | hsize
  · rw [hsame]
    exact partsBelow_encoded hlt hlead
  · have hfirst := lead_lt_lead hsize
    obtain ⟨rest, hrest⟩ := exists_encoded_eq_cons (sizeMark (following c.val.toNat))
      (following c.val.toNat) c.val.toNat
    obtain ⟨rest', hrest'⟩ := exists_encoded_eq_cons (sizeMark (following d.val.toNat))
      (following d.val.toNat) d.val.toNat
    rw [hrest, hrest']
    exact .inl ((UInt8.ofNat_lt_iff_lt (Nat.lt_trans hfirst hlead) hlead).2 hfirst)

end Encoding

/-! ### The bytes of a text -/

theorem utf8_eq_flatMap (s : String) : utf8 s = s.toList.flatMap String.utf8EncodeChar := by
  rw [utf8, String.toUTF8, ← String.utf8Encode_toList, List.utf8Encode, List.data_toByteArray]

/-- The first characters that differ are decided by bytes that differ, and what follows does not
matter. -/
theorem flatMap_utf8EncodeChar_lt {l m : List Char} (h : l < m) :
    l.flatMap String.utf8EncodeChar < m.flatMap String.utf8EncodeChar := by
  induction h with
  | nil =>
    rename_i d m
    obtain ⟨b, rest, hrest⟩ := List.exists_cons_of_ne_nil (String.utf8EncodeChar_ne_nil (c := d))
    rw [List.flatMap_nil, List.flatMap_cons, hrest]
    exact List.nil_lt_cons _ _
  | cons _ ih =>
    rw [List.flatMap_cons, List.flatMap_cons]
    exact List.append_left_lt ih
  | rel hcd =>
    rw [List.flatMap_cons, List.flatMap_cons]
    exact ((partsBelow_utf8EncodeChar hcd).append _ _).lt

theorem utf8_lt_of_compare {s t : String} (h : compare s t = .lt) : utf8 s < utf8 t := by
  have hlt : s < t := compareOfLessAndEq_eq_lt.1 h
  rw [utf8_eq_flatMap, utf8_eq_flatMap]
  exact flatMap_utf8EncodeChar_lt (String.lt_iff.1 hlt)

/-- Names are ordered as their bytes are. -/
theorem compare_eq_lt_iff_utf8 {s t : String} : compare s t = .lt ↔ utf8 s < utf8 t := by
  refine ⟨utf8_lt_of_compare, ?_⟩
  intro h
  cases hcompare : compare s t with
  | lt => rfl
  | eq =>
    obtain rfl : s = t := Std.LawfulEqOrd.eq_of_compare hcompare
    exact absurd h (List.lt_irrefl _)
  | gt =>
    have hgt := utf8_lt_of_compare (Std.OrientedCmp.lt_of_gt hcompare)
    exact absurd hgt (List.lt_asymm h)

end Flowchart
