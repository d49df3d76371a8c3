import Folio.Asn1.Element
import Folio.Proofs.Bytes
import Folio.Proofs.Except

/-!
# Integers

The contents of an integer are a number in two's complement, and what is read from them are its bytes
without leading zeros. Main statements: `value_eq_iff_of_dropZeros_eq`, equal bytes belong to equal numbers
if and only if both or neither of them are negative, and `dropZeros_eq_octets`, the bytes of a positive
number are its base-256 digits.
-/

namespace Folio.Asn1

namespace Integer

variable {contents a b : Bytes} {n : Nat}

/-- Whether contents begin with a set bit. -/
def isMarked (contents : Bytes) : Bool := contents.head?.any (0x80 ≤ ·)

/-- The number that contents state in two's complement. -/
def value (contents : Bytes) : Int :=
  contents.toNatBE - if isMarked contents then 256 ^ contents.length else 0

/-- The base-256 digits of a number, highest first. -/
def octets (n : Nat) : Bytes := (Nat.digits 256 n).reverse.map Nat.toUInt8

theorem value_neg_iff : value contents < 0 ↔ isMarked contents = true := by
  have hlt : (contents.toNatBE : Int) < 256 ^ contents.length := by
    exact_mod_cast Bytes.toNatBE_lt contents
  unfold value
  split <;> simp_all

theorem value_of_nonneg (h : 0 ≤ value contents) : value contents = contents.toNatBE := by
  have hmarked : ¬ isMarked contents = true := fun hm => absurd (value_neg_iff.mpr hm) (Int.not_lt.mpr h)
  rw [value, if_neg hmarked, Int.sub_zero]

/-! ## Without leading zeros -/

theorem dropZeros_of_head?_ne (h : contents.head? ≠ some 0) : Element.dropZeros contents = contents := by
  rw [Element.dropZeros]
  rintro b rest rfl
  exact h rfl

theorem dropZeros_of_isMarked (h : isMarked contents = true) : Element.dropZeros contents = contents := by
  apply dropZeros_of_head?_ne
  intro hzero
  rw [isMarked, hzero] at h
  exact absurd h (by decide)

theorem toNatBE_zero_cons (bytes : Bytes) : Bytes.toNatBE (0 :: bytes) = bytes.toNatBE := by
  simp [Bytes.toNatBE]

theorem toNatBE_dropZeros (contents : Bytes) :
    (Element.dropZeros contents).toNatBE = contents.toNatBE := by
  fun_induction Element.dropZeros contents with
  | case1 b rest ih => rw [ih, toNatBE_zero_cons]
  | case2 => rfl

theorem head?_dropZeros (h : 0 < contents.toNatBE) : (Element.dropZeros contents).head? ≠ some 0 := by
  fun_induction Element.dropZeros contents with
  | case1 b rest ih =>
    rw [toNatBE_zero_cons] at h
    exact ih h
  | case2 bytes hkept =>
    intro hhead
    obtain ⟨rest, rfl⟩ := List.head?_eq_some_iff.mp hhead
    cases rest with
    | nil => exact absurd h (by decide)
    | cons b rest => exact hkept b rest rfl

/-- Integers with the same bytes are equal unless the sign of one of them was among its leading zeros. -/
theorem value_eq_iff_of_dropZeros_eq (h : Element.dropZeros a = Element.dropZeros b) :
    value a = value b ↔ (value a < 0 ↔ value b < 0) := by
  constructor
  · intro heq
    rw [heq]
  · intro hsign
    by_cases ha : value a < 0
    · have hb := hsign.mp ha
      rw [dropZeros_of_isMarked (value_neg_iff.mp ha), dropZeros_of_isMarked (value_neg_iff.mp hb)] at h
      rw [h]
    · have hb : ¬ value b < 0 := fun hb => ha (hsign.mpr hb)
      rw [value_of_nonneg (Int.not_lt.mp ha), value_of_nonneg (Int.not_lt.mp hb), ← toNatBE_dropZeros a, h,
        toNatBE_dropZeros]

/-! ## Positive numbers -/

theorem toNatBE_eq_ofDigits (bytes : Bytes) :
    bytes.toNatBE = Nat.ofDigits 256 (bytes.map UInt8.toNat).reverse := by
  induction bytes using List.reverseRecOn with
  | nil => rfl
  | append_singleton bytes b ih =>
    rw [Bytes.toNatBE_append_singleton, ih, List.map_append, List.reverse_append, List.map_singleton,
      List.reverse_singleton, List.singleton_append, Nat.ofDigits_cons]
    ring

theorem octets_toNatBE {bytes : Bytes} (h : bytes.head? ≠ some 0) : octets bytes.toNatBE = bytes := by
  have hdigits : Nat.digits 256 bytes.toNatBE = (bytes.map UInt8.toNat).reverse := by
    rw [toNatBE_eq_ofDigits]
    apply Nat.digits_ofDigits 256 (by decide)
    · intro d hd
      obtain ⟨b, -, rfl⟩ := List.mem_map.mp (List.mem_reverse.mp hd)
      exact b.toNat_lt
    · intro hne hzero
      rw [List.getLast_reverse] at hzero
      cases bytes with
      | nil => exact hne rfl
      | cons b bytes =>
        obtain rfl : b = 0 := UInt8.toNat_inj.mp hzero
        exact h rfl
  have hbyte : ∀ b : UInt8, b.toNat.toUInt8 = b := fun b => UInt8.ofNat_toNat
  rw [octets, hdigits, List.reverse_reverse, List.map_map]
  exact (List.map_congr_left fun b _ => hbyte b).trans (List.map_id bytes)

/-- What is read from an integer that is positive are its base-256 digits. -/
theorem dropZeros_eq_octets (h : value contents = n) (hpos : 0 < n) :
    Element.dropZeros contents = octets n := by
  have hvalue : contents.toNatBE = n := by
    rw [value_of_nonneg (h ▸ Int.natCast_nonneg n)] at h
    exact_mod_cast h
  have hkept := octets_toNatBE (head?_dropZeros (hvalue.symm ▸ hpos))
  rw [← hkept, toNatBE_dropZeros, hvalue]

theorem ne_nil_of_value_pos (h : 0 < value contents) : contents ≠ [] := by
  rintro rfl
  exact absurd h (by decide)

end Integer

/-! ## Elements that are integers -/

namespace Element

variable {e found : Element} {tag : UInt8} {bytes : Bytes} {n : Nat}

theorem expect_eq_ok : e.expect tag = .ok found ↔ e.tag = tag ∧ e = found := by
  rw [expect]
  split <;> simp_all

theorem integer_eq_ok :
    e.integer = .ok bytes ↔ e.tag = Tag.integer ∧ e.contents ≠ [] ∧ dropZeros e.contents = bytes := by
  simp only [integer, Except.bind_eq_ok, expect_eq_ok]
  constructor
  · rintro ⟨_, ⟨htag, rfl⟩, h⟩
    cases hcontents : e.contents.isEmpty with
    | true =>
      simp only [hcontents, if_true, Except.throw_bind] at h
      cases h
    | false =>
      simp only [hcontents, Bool.false_eq_true, if_false, Except.pure_eq_ok] at h
      exact ⟨htag, List.isEmpty_eq_false_iff.mp hcontents, h⟩
  · rintro ⟨htag, hne, rfl⟩
    have hcontents := List.isEmpty_eq_false_iff.mpr hne
    refine ⟨e, ⟨htag, rfl⟩, ?_⟩
    simp only [hcontents, Bool.false_eq_true, if_false, Except.pure_eq_ok]

theorem smallInteger_eq_ok : e.smallInteger = .ok n ↔ e.tag = Tag.integer ∧ 0 ≤ Integer.value e.contents ∧
    ∃ bytes, e.integer = .ok bytes ∧ bytes.length ≤ 4 ∧ bytes.toNatBE = n := by
  have hsign : 0 ≤ Integer.value e.contents ↔ Integer.isMarked e.contents = false := by
    rw [← Int.not_lt, Integer.value_neg_iff, Bool.not_eq_true]
  rw [hsign]
  simp only [smallInteger, Except.bind_eq_ok, expect_eq_ok, Integer.isMarked]
  constructor
  · rintro ⟨_, ⟨htag, rfl⟩, h⟩
    cases hmarked : e.contents.head?.any (0x80 ≤ ·) with
    | true =>
      simp only [hmarked, if_true, Except.throw_bind] at h
      cases h
    | false =>
      simp only [hmarked, Bool.false_eq_true, if_false, Except.bind_eq_ok] at h
      obtain ⟨bytes, hbytes, h⟩ := h
      by_cases hlength : 4 < bytes.length
      · simp only [hlength, if_true, Except.throw_bind] at h
        cases h
      · simp only [hlength, if_false, Except.pure_eq_ok] at h
        exact ⟨htag, rfl, bytes, hbytes, Nat.le_of_not_lt hlength, h⟩
  · rintro ⟨htag, hmarked, bytes, hbytes, hlength, rfl⟩
    refine ⟨e, ⟨htag, rfl⟩, ?_⟩
    simp only [hmarked, Bool.false_eq_true, if_false, hbytes, Except.ok_bind, Nat.not_lt.mpr hlength]
    rfl

end Element

end Folio.Asn1
