import Mathlib
import Folio.Single

/-!
# The order of singles

Singles are ordered by their signs, then by their exponents, then by their digits. Main statement:
`Single.clamp_toFloat32`, a whole number below 256 stays as it is in an interval from zero that it lies in.
-/

namespace Folio.Single

open Float.Model (UnpackedFloat)

variable {x y z : Float32}

theorem fit_length (values : List Float32) : fit values.length values = values := by
  induction values with
  | nil => rfl
  | cons x values ih => rw [List.length_cons, fit, ih]

/-! ## Less -/

/-- What numbers are compared by: the side of zero they are on, then their exponents, then their digits. -/
def key? : UnpackedFloat → Option (Int ×ₗ Int ×ₗ Int)
  | .infinity .negative => some (toLex (-2, toLex (0, 0)))
  | .finite .negative digits exponent _ => some (toLex (-1, toLex (-exponent, -digits)))
  | .zero _ => some (toLex (0, toLex (0, 0)))
  | .finite .positive digits exponent _ => some (toLex (1, toLex (exponent, digits)))
  | .infinity .positive => some (toLex (2, toLex (0, 0)))
  | .notANumber => none

theorem compare_eq_lt_iff {x y : UnpackedFloat} :
    x.compare y = some .lt ↔ ∃ a ∈ key? x, ∃ b ∈ key? y, a < b := by
  rcases x with ⟨_ | _⟩ | _ | _ | ⟨_ | _, _, _, _⟩ <;> rcases y with ⟨_ | _⟩ | _ | _ | ⟨_ | _, _, _, _⟩ <;>
    simp [UnpackedFloat.compare, key?, Prod.Lex.toLex_lt_toLex, Ordering.then_eq_lt, Ordering.then_eq_gt,
      compare_lt_iff_lt, compare_gt_iff_gt]
  -- The infinities are left, whose signs are compared.
  rfl

theorem lt_iff_key? : x < y ↔ ∃ a ∈ key? x.toModel.unpack, ∃ b ∈ key? y.toModel.unpack, a < b := by
  rw [← compare_eq_lt_iff]
  show x.lt y = true ↔ _
  unfold Float32.lt
  rw [decide_eq_true_iff]
  exact beq_iff_eq

theorem lt_trans (hxy : x < y) (hyz : y < z) : x < z := by
  obtain ⟨a, ha, b, hb, hab⟩ := lt_iff_key?.mp hxy
  obtain ⟨b', hb', c, hc, hbc⟩ := lt_iff_key?.mp hyz
  obtain rfl : b = b' := Option.mem_unique hb hb'
  exact lt_iff_key?.mpr ⟨a, ha, c, hc, hab.trans hbc⟩

theorem lt_irrefl (x : Float32) : ¬ x < x := by
  intro h
  obtain ⟨a, ha, b, hb, hab⟩ := lt_iff_key?.mp h
  exact hab.ne (Option.mem_unique ha hb)

/-! ## Whole numbers -/

theorem toFloat32_lt_succ : ∀ i < 255, i.toFloat32 < (i + 1).toFloat32 := by
  decide +kernel

/-- Smaller numbers are smaller singles. -/
theorem toFloat32_lt {i j : Nat} (hij : i < j) (hj : j < 256) : i.toFloat32 < j.toFloat32 := by
  induction j, hij using Nat.le_induction with
  | base => exact toFloat32_lt_succ i (Nat.lt_of_succ_lt_succ hj)
  | succ j hij ih => exact lt_trans (ih (Nat.lt_of_succ_lt hj)) (toFloat32_lt_succ j (Nat.lt_of_succ_lt_succ hj))

theorem not_toFloat32_lt {i j : Nat} (hij : i ≤ j) (hj : j < 256) : ¬ j.toFloat32 < i.toFloat32 := by
  rcases hij.eq_or_lt with rfl | hlt
  · exact lt_irrefl _
  · exact fun h => lt_irrefl _ (lt_trans (toFloat32_lt hlt hj) h)

theorem clamp_toFloat32 {i j : Nat} (hij : i ≤ j) (hj : j < 256) :
    clamp i.toFloat32 0 j.toFloat32 = i.toFloat32 := by
  have hzero : (0 : Float32) = (0 : Nat).toFloat32 := by decide +kernel
  rw [clamp, hzero, if_neg (not_toFloat32_lt (Nat.zero_le i) (hij.trans_lt hj)), if_neg (not_toFloat32_lt hij hj)]

end Folio.Single
