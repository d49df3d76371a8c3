import Mathlib
import Folio.Bilevel.Bitmap

/-!
# The pixels of bitmaps

A bitmap that is given by the color of each pixel is determined by the colors within its size.

Main statements: growing and painting such a bitmap gives the colors of the new one.
-/

namespace Folio.Bilevel.Bitmap

variable {width height : Nat} {background : Bool} {color : Nat → Nat → Bool}

@[simp] theorem width_ofFn : (ofFn width height background color).width = width := rfl

@[simp] theorem height_ofFn : (ofFn width height background color).height = height := rfl

/-- The pixels of a row lie before those of the next one. -/
theorem index_lt {x y : Nat} (hx : x < width) (hy : y < height) : y * width + x < width * height := by
  have hrow : (y + 1) * width ≤ height * width := Nat.mul_le_mul_right width hy
  rw [Nat.succ_mul] at hrow
  rw [Nat.mul_comm width height]
  omega

theorem get_natCast {b : Bitmap} {x y : Nat} (hx : x < b.width) (hy : y < b.height) :
    b.get x y = b.pixels.getD (y * b.width + x) false := by
  have hinside : (0 : Int) ≤ x ∧ (0 : Int) ≤ y ∧ (x : Int) < b.width ∧ (y : Int) < b.height := by
    omega
  rw [get, if_pos hinside]
  simp only [Int.toNat_natCast]

theorem get_ofFn {x y : Nat} (hx : x < width) (hy : y < height) :
    (ofFn width height background color).get x y = color x y := by
  have hpos : 0 < width := Nat.zero_lt_of_lt hx
  have hmod : (y * width + x) % width = x := by
    rw [Nat.add_comm, Nat.add_mul_mod_self_right, Nat.mod_eq_of_lt hx]
  have hdiv : (y * width + x) / width = y := by
    rw [Nat.add_comm, Nat.add_mul_div_right _ _ hpos, Nat.div_eq_of_lt hx, Nat.zero_add]
  have hlt : y * width + x < width * height := index_lt hx hy
  rw [get_natCast hx hy]
  simp [ofFn, hlt, hmod, hdiv]

/-- The colors in the order of the pixels. -/
def colors (width height : Nat) (color : Nat → Nat → Bool) : List Bool :=
  (List.range (width * height)).map fun i => color (i % width) (i / width)

theorem ofFn_eq : ofFn width height background color =
    ⟨width, height, (colors width height color).toArray, background⟩ := rfl

theorem colors_congr {color' : Nat → Nat → Bool}
    (h : ∀ x y, x < width → y < height → color x y = color' x y) :
    colors width height color = colors width height color' := by
  apply List.map_congr_left
  intro i hi
  have hi' : i < width * height := List.mem_range.mp hi
  have hpos : 0 < width := Nat.pos_of_mul_pos_right (Nat.zero_lt_of_lt hi')
  exact h _ _ (Nat.mod_lt i hpos) (Nat.div_lt_of_lt_mul hi')

/-- Only the colors within the size of a bitmap count. -/
theorem ofFn_congr {color' : Nat → Nat → Bool}
    (h : ∀ x y, x < width → y < height → color x y = color' x y) :
    ofFn width height background color = ofFn width height background color' := by
  rw [ofFn_eq, ofFn_eq, colors_congr h]

theorem colors_const : colors width height (fun _ _ => background) =
    List.replicate (width * height) background := by
  simp [colors]

theorem blank_eq_ofFn :
    blank width height background = ofFn width height background fun _ _ => background := by
  rw [ofFn_eq, colors_const]
  simp [blank]

/-- The colors of more rows. -/
theorem colors_add (added : Nat) : colors width (height + added) color =
    colors width height color ++ colors width added fun x y => color x (height + y) := by
  unfold colors
  rw [Nat.mul_add, List.range_add, List.map_append, List.map_map]
  congr 1
  apply List.map_congr_left
  intro i hi
  have hi' : i < width * added := List.mem_range.mp hi
  have hpos : 0 < width := Nat.pos_of_mul_pos_right (Nat.zero_lt_of_lt hi')
  rw [Function.comp_apply, Nat.mul_add_mod, Nat.mul_add_div hpos]

/-- The rows that are added have the color of the background. -/
theorem grow_ofFn (added : Nat) :
    (ofFn width height background color).grow added =
      ofFn width (max height added) background fun x y =>
        if y < height then color x y else background := by
  unfold grow
  by_cases hlt : height < added
  · have hkept : colors width height (fun x y => if y < height then color x y else background) =
        colors width height color := colors_congr fun x y _ hy => if_pos hy
    have hnew : colors width (added - height)
          (fun x y => if height + y < height then color x (height + y) else background) =
        List.replicate (width * (added - height)) background := by
      rw [← colors_const]
      exact colors_congr fun x y _ _ => if_neg (Nat.not_lt.mpr (Nat.le_add_right _ _))
    obtain ⟨rows, rfl⟩ : ∃ rows, added = height + rows := ⟨added - height, by omega⟩
    rw [height_ofFn, if_pos hlt, Nat.max_eq_right hlt.le, ofFn_eq, ofFn_eq, colors_add, hkept]
    rw [Nat.add_sub_cancel_left] at hnew ⊢
    rw [hnew]
    simp
  · rw [height_ofFn, if_neg hlt, Nat.max_eq_left (Nat.le_of_not_lt hlt)]
    exact ofFn_congr fun x y _ hy => (if_pos hy).symm

/-- A region changes the colors of the pixels it covers. -/
theorem paint_ofFn (region : Bitmap) (x y : Nat) (c : Combination) :
    (ofFn width height background color).paint region x y c =
      ofFn width height background fun px py =>
        if x ≤ px ∧ px < x + region.width ∧ y ≤ py ∧ py < y + region.height then
          c.apply (color px py) (region.get ((px : Int) - x) ((py : Int) - y))
        else color px py := by
  unfold paint
  refine ofFn_congr fun px py hx hy => ?_
  rw [width_ofFn] at hx
  rw [height_ofFn] at hy
  rw [get_ofFn hx hy]

end Folio.Bilevel.Bitmap
