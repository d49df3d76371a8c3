import Mathlib
import Folio.Fax.Row

/-!
# Changes of color

Main statements: the changes of a row determine its pixels, the color of a pixel is given by how many
changes there are up to it, and what is read back from the changes of a row does not depend on
whether the end of the row is counted as one.
-/

namespace Folio.Fax

/-- The changes of a row whose first pixel is at `x`, after a pixel of the given color. -/
def changesFrom : Nat → Bool → List Bool → List Nat
  | _, _, [] => []
  | x, color, pixel :: row =>
    if pixel = color then changesFrom (x + 1) color row else x :: changesFrom (x + 1) pixel row

/-- The positions of the pixels of a row, true for black, that differ in color from the pixel before,
where a white pixel is imagined before the first one. -/
def changes (row : List Bool) : List Nat := changesFrom 0 false row

theorem mem_changesFrom {x c : Nat} {color : Bool} {row : List Bool}
    (h : c ∈ changesFrom x color row) : x ≤ c ∧ c < x + row.length := by
  induction row generalizing x color with
  | nil => exact absurd h List.not_mem_nil
  | cons pixel row ih =>
    rw [changesFrom] at h
    rw [List.length_cons]
    split at h
    · have := ih h
      omega
    · rcases List.mem_cons.mp h with rfl | h
      · omega
      · have := ih h
        omega

theorem pairwise_changesFrom (x : Nat) (color : Bool) (row : List Bool) :
    (changesFrom x color row).Pairwise (· < ·) := by
  induction row generalizing x color with
  | nil => exact List.Pairwise.nil
  | cons pixel row ih =>
    rw [changesFrom]
    split
    · exact ih _ _
    · exact List.pairwise_cons.mpr ⟨fun c hc => (mem_changesFrom hc).1, ih _ _⟩

theorem pairwise_changes (row : List Bool) : (changes row).Pairwise (· < ·) :=
  pairwise_changesFrom 0 false row

theorem lt_length_of_mem_changes {row : List Bool} {c : Nat} (h : c ∈ changes row) :
    c < row.length :=
  (mem_changesFrom h).2.trans_le (Nat.zero_add _).le

theorem decide_odd_succ (k : Nat) : decide ((k + 1) % 2 = 1) = !decide (k % 2 = 1) := by
  rcases Nat.mod_two_eq_zero_or_one k with h | h
  · rw [h, Nat.add_mod, h]
    rfl
  · rw [h, Nat.add_mod, h]
    rfl

/-- The color of a pixel is that of the pixel before the row, changed as often as there are changes
up to the pixel. -/
theorem getD_eq_countP_changesFrom (color : Bool) {x y : Nat} {row : List Bool}
    (h : y < row.length) :
    row.getD y false =
      (color != decide ((changesFrom x color row).countP (· ≤ x + y) % 2 = 1)) := by
  induction row generalizing x y color with
  | nil => exact absurd h (Nat.not_lt_zero _)
  | cons pixel row ih =>
    have hnone : ∀ color, (changesFrom (x + 1) color row).countP (· ≤ x + 0) = 0 := by
      intro color
      rw [List.countP_eq_zero]
      intro c hc
      have := (mem_changesFrom hc).1
      rw [decide_eq_true_eq]
      omega
    rw [changesFrom]
    cases y with
    | zero =>
      rw [List.getD_cons_zero]
      split
      · rename_i hpixel
        rw [hnone, hpixel]
        exact (Bool.xor_false color).symm
      · rename_i hpixel
        rw [List.countP_cons_of_pos (by simp), hnone, Bool.eq_not.mpr hpixel]
        exact (Bool.xor_true color).symm
    | succ y =>
      have hrest : ∀ color, row.getD y false =
          (color != decide ((changesFrom (x + 1) color row).countP (· ≤ x + (y + 1)) % 2 = 1)) := by
        intro color
        rw [ih color (x := x + 1) (Nat.lt_of_succ_lt_succ h), Nat.add_assoc x, Nat.add_comm 1]
      rw [List.getD_cons_succ]
      split
      · exact hrest color
      · rename_i hpixel
        rw [hrest pixel, List.countP_cons_of_pos (by simp), decide_odd_succ,
          Bool.eq_not.mpr hpixel]
        simp

theorem getD_eq_countP_changes {row : List Bool} {y : Nat} (h : y < row.length) :
    row.getD y false = decide ((changes row).countP (· ≤ y) % 2 = 1) := by
  rw [getD_eq_countP_changesFrom false (x := 0) h, Nat.zero_add, Bool.false_bne]
  rfl

/-- A white row has no changes. -/
theorem changes_replicate (columns : Nat) : changes (List.replicate columns false) = [] := by
  unfold changes
  generalize 0 = x
  induction columns generalizing x with
  | zero => rfl
  | succ columns ih =>
    rw [List.replicate_succ, changesFrom, if_pos rfl]
    exact ih (x + 1)

/-! ## Changes as they are stored -/

/-- The changes of a row as they are read: the end of the row may be counted as a change. -/
def Stores (stored : List Nat) (row : List Bool) : Prop :=
  stored = changes row ∨ stored = changes row ++ [row.length]

/-- The pixels up to the first change are those of the color before it. -/
theorem pixelsFrom_changesFrom {stored : List Nat} {columns x start : Nat} {color : Bool}
    {row : List Bool} (hstored : stored = [] ∨ stored = [columns]) (hstart : start ≤ x)
    (hcolumns : x + row.length = columns) :
    pixelsFrom columns start color (changesFrom x color row ++ stored) =
      List.replicate (x - start) color ++ row := by
  induction row generalizing x start color with
  | nil =>
    rw [List.length_nil, Nat.add_zero] at hcolumns
    subst hcolumns
    rcases hstored with rfl | rfl
    · exact (List.append_nil _).symm
    · simp [changesFrom, pixelsFrom]
  | cons pixel row ih =>
    rw [List.length_cons] at hcolumns
    have hnext : x + 1 + row.length = columns := by omega
    rw [changesFrom]
    split
    · rename_i hpixel
      rw [ih (by omega) hnext, Nat.sub_add_comm hstart, List.replicate_succ', List.append_assoc,
        hpixel]
      rfl
    · rename_i hpixel
      rw [List.cons_append, pixelsFrom, ← Bool.eq_not.mpr hpixel, ih (Nat.le_add_right x 1) hnext,
        Nat.add_sub_cancel_left]
      rfl

theorem Stores.pixels {stored : List Nat} {row : List Bool} {columns : Nat}
    (h : Stores stored row) (hlen : row.length = columns) : pixels columns stored = row := by
  subst hlen
  rcases h with rfl | rfl
  · have hpixels : pixelsFrom row.length 0 false (changes row ++ []) = row :=
      pixelsFrom_changesFrom (.inl rfl) (Nat.le_refl 0) (Nat.zero_add row.length)
    rw [List.append_nil] at hpixels
    exact hpixels
  · exact pixelsFrom_changesFrom (.inr rfl) (Nat.le_refl 0) (Nat.zero_add _)

theorem Stores.toReference {stored : List Nat} {row : List Bool} {columns : Nat}
    (h : Stores stored row) (hlen : row.length = columns) :
    toReference columns stored = (changes row ++ [columns, columns]).toArray := by
  subst hlen
  have hall : (changes row).filter (· < row.length) = changes row := by
    rw [List.filter_eq_self]
    intro c hc
    rw [decide_eq_true_eq]
    exact lt_length_of_mem_changes hc
  rw [Folio.Fax.toReference]
  rcases h with rfl | rfl
  · rw [hall]
  · rw [List.filter_append, hall, List.filter_cons_of_neg (by simp), List.filter_nil,
      List.append_nil]

end Folio.Fax
