import Mathlib
import Folio.Bilevel.Arithmetic

/-!
# Code strings of arithmetic coding

An arithmetic code is a binary fraction whose digits are written in bytes. The byte after `FF`
overlaps it by one bit, which leaves room for a carry: it stands for seven digits and may have an
eighth that is added to the byte before. Strings are lists here with the latest byte first, since
both coders look back at the latest byte only.

A fraction is given by its digits as a number and by how many there are.
-/

namespace Folio.Bilevel

/-- The fraction of `digits` binary digits that are `value` as a number. -/
def frac (value digits : Nat) : ℚ := value / 2 ^ digits

theorem frac_mul_two_pow (value digits k : Nat) :
    frac (value * 2 ^ k) (digits + k) = frac value digits := by
  unfold frac
  push_cast
  rw [pow_add]
  field_simp

theorem frac_le_frac {x y digits : Nat} : frac x digits ≤ frac y digits ↔ x ≤ y := by
  unfold frac
  rw [div_le_div_iff_of_pos_right (by positivity)]
  exact Nat.cast_le

theorem frac_lt_frac {x y digits : Nat} : frac x digits < frac y digits ↔ x < y := by
  unfold frac
  rw [div_lt_div_iff_of_pos_right (by positivity)]
  exact Nat.cast_lt

/-- How many digits a byte stands for after the given bytes. -/
def digitsAfter : Bytes → Nat
  | 0xFF :: _ => 7
  | _ => 8

/-- The number of digits of a code string. -/
def codeDigits : Bytes → Nat
  | [] => 0
  | _ :: earlier => codeDigits earlier + digitsAfter earlier

/-- The digits of a code string as a number. -/
def codeValue : Bytes → Nat
  | [] => 0
  | b :: earlier => codeValue earlier * 2 ^ digitsAfter earlier + b.toNat

/-- The fraction of a code string as it is written. -/
def codeLow (s : Bytes) : ℚ := frac (codeValue s) (codeDigits s)

/-- The fraction of a code string that is continued with ones forever. -/
def codeHigh (s : Bytes) : ℚ := frac (codeValue s + 1) (codeDigits s)

theorem digitsAfter_of_ne {b : UInt8} {earlier : Bytes} (h : b ≠ 0xFF) :
    digitsAfter (b :: earlier) = 8 := by
  unfold digitsAfter
  split
  · rename_i heq
    exact absurd (List.cons.inj heq).1 h
  · rfl

theorem digitsAfter_eq (s : Bytes) : digitsAfter s = 7 ∨ digitsAfter s = 8 := by
  unfold digitsAfter
  split
  · exact .inl rfl
  · exact .inr rfl

theorem codeDigits_le_of_suffix {w s : Bytes} (h : w <:+ s) : codeDigits w ≤ codeDigits s := by
  obtain ⟨later, rfl⟩ := h
  induction later with
  | nil => exact Nat.le_refl _
  | cons b later ih => exact ih.trans (Nat.le_add_right _ _)

/-- More bytes never make a code string smaller. -/
theorem codeLow_le_of_suffix {w s : Bytes} (h : w <:+ s) : codeLow w ≤ codeLow s := by
  obtain ⟨later, rfl⟩ := h
  induction later with
  | nil => exact le_refl _
  | cons b later ih =>
    refine ih.trans ?_
    change frac _ _ ≤ frac _ _
    rw [← frac_mul_two_pow _ _ (digitsAfter (later ++ w)), List.cons_append, codeDigits,
      frac_le_frac, codeValue]
    exact Nat.le_add_right _ _

theorem codeLow_lt_codeHigh (s : Bytes) : codeLow s < codeHigh s :=
  frac_lt_frac.mpr (Nat.lt_succ_self _)

end Folio.Bilevel
