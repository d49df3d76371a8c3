import Mathlib
import Folio.Color.Space
import Folio.Proofs.Single

/-!
# Numbered colors

The components of a numbered color are stored in one byte each, and the samples of an image in the base space stand
for components in certain intervals. Main statement: `ColorSpace.toRgb_indexed`. The bytes stand for components from
zero to one, which are those intervals unless the base space has a lightness and two components for the hue. There,
the brightest color of a palette has one hundredth of the lightness of white.
-/

namespace Folio

theorem Rgb.level_intensity : ∀ v : UInt8, level (intensity v) = v := by
  decide +kernel

namespace ColorSpace

variable {s base : ColorSpace} {highest index : Nat} {palette levels entry : Bytes} {ratio : Float32}

/-- Whether the colors of a space have components of their own, and are not numbered, or those of a profile, or
patterns. -/
def IsPlain : ColorSpace → Prop
  | indexed _ _ _ | profile _ _ | pattern | uncoloredPattern _ => False
  | _ => True

/-- The number that a level stands for, where the levels are spread over an interval. -/
def spread (interval : Float32 × Float32) (level : UInt8) : Float32 :=
  interval.1 + Rgb.intensity level * (interval.2 - interval.1)

/-- The components that levels stand for, where the levels are spread over the intervals of the components. -/
def spreadLevels (s : ColorSpace) (levels : Bytes) : List Float32 :=
  List.zipWith spread (s.defaultDecode 8) levels

theorem spread_unit : ∀ v : UInt8, spread (0, 1) v = Rgb.intensity v := by
  decide +kernel

/-- Levels that are spread from zero to one are intensities. -/
theorem spreadLevels_eq_map (hs : s.IsPlain) (hlab : ∀ l, s ≠ lab l) (hlength : levels.length = s.components) :
    s.spreadLevels levels = levels.map Rgb.intensity := by
  have hdecode : s.defaultDecode 8 = List.replicate levels.length (0, 1) := by
    rw [hlength]
    cases s with
    | lab l => exact absurd rfl (hlab l)
    | indexed _ _ _ | profile _ _ | pattern | uncoloredPattern _ => exact hs.elim
    | gray | rgb | cmyk | calGray _ | calRgb _ | separation _ _ _ | deviceN _ _ _ => rfl
  rw [spreadLevels, hdecode]
  clear hlength hdecode
  induction levels with
  | nil => rfl
  | cons v levels ih =>
    rw [List.length_cons, List.replicate_succ, List.zipWith_cons_cons, ih, spread_unit, List.map_cons]

/-- The color of levels is that of their intensities. -/
theorem convertLevels?_eq (hs : s.IsPlain) (hlength : levels.length = s.components) :
    s.convertLevels? ratio levels = s.convert? ratio (levels.map Rgb.intensity) := by
  cases s with
  | gray =>
    obtain ⟨v, rfl⟩ := List.length_eq_one_iff.mp hlength
    show some (Rgb.gray v) = some (Rgb.gray (Rgb.level (Rgb.intensity v)))
    rw [Rgb.level_intensity]
  | rgb =>
    obtain ⟨r, g, b, rfl⟩ := List.length_eq_three.mp hlength
    show some (⟨r, g, b⟩ : Rgb) = some (Rgb.ofIntensities (Rgb.intensity r) (Rgb.intensity g) (Rgb.intensity b))
    rw [Rgb.ofIntensities, Rgb.level_intensity, Rgb.level_intensity, Rgb.level_intensity]
  | cmyk =>
    match levels, hlength with
    | [_, _, _, _], _ => rfl
  | indexed _ _ _ | profile _ _ | pattern | uncoloredPattern _ => exact hs.elim
  | calGray _ | calRgb _ | lab _ | separation _ _ _ | deviceN _ _ _ => rfl

/-- A number of a color has the entry at its place. -/
theorem paletteEntry?_toFloat32 (hindex : index ≤ highest) (hhighest : highest < 256) (components : Nat)
    (palette : Bytes) :
    paletteEntry? components highest palette index.toFloat32 =
      palette.slice? (index * components) ((index + 1) * components) := by
  have hround : ∀ i < 256, (i.toFloat32 + 0.5).toUInt64.toNat = i := by decide +kernel
  unfold paletteEntry?
  rw [Single.clamp_toFloat32 hindex hhighest, hround index (hindex.trans_lt hhighest)]

/-- An entry has one byte for each component. -/
theorem length_entry {components : Nat}
    (h : palette.slice? (index * components) ((index + 1) * components) = some entry) : entry.length = components := by
  obtain ⟨⟨-, hle⟩, hentry⟩ := Option.ite_none_right_eq_some.mp h
  obtain rfl := Option.some.inj hentry
  rw [Nat.add_one_mul] at hle ⊢
  rw [List.length_take, List.length_drop]
  omega

/-- The color of a number is that of the intensities in its entry. -/
theorem toRgb_indexed_eq_intensities (hbase : base.IsPlain) (hindex : index ≤ highest) (hhighest : highest < 256)
    (hentry : palette.slice? (index * base.components) ((index + 1) * base.components) = some entry)
    (ratio : Float32) :
    (indexed base highest palette).toRgb ratio [index.toFloat32] = base.toRgb ratio (entry.map Rgb.intensity) := by
  have hlength := length_entry hentry
  have hfit : Single.fit base.components (entry.map Rgb.intensity) = entry.map Rgb.intensity := by
    rw [← hlength, ← entry.length_map Rgb.intensity, Single.fit_length]
  rw [toRgb, toRgb, hfit, ← convertLevels?_eq hbase hlength]
  show (convert? ratio (indexed base highest palette) [index.toFloat32]).getD .black = _
  rw [convert?, paletteEntry?_toFloat32 hindex hhighest, hentry]
  rfl

/-- The color of a number is that of components from zero to one. It is the color that the entry stands for, if the
base space has no lightness, or if the components from zero to one have the same color as those in their intervals. -/
theorem toRgb_indexed (hbase : base.IsPlain) (hindex : index ≤ highest) (hhighest : highest < 256)
    (hentry : palette.slice? (index * base.components) ((index + 1) * base.components) = some entry)
    (ratio : Float32) :
    (indexed base highest palette).toRgb ratio [index.toFloat32] = base.toRgb ratio (entry.map Rgb.intensity) ∧
      ((indexed base highest palette).toRgb ratio [index.toFloat32] = base.toRgb ratio (base.spreadLevels entry) ↔
        ∀ l v a b, base = lab l → entry = [v, a, b] →
          l.toRgb (Rgb.intensity v) (Rgb.intensity a) (Rgb.intensity b) =
            l.toRgb (spread (0, 100) v) (spread l.rangeA a) (spread l.rangeB b)) := by
  have hcolor := toRgb_indexed_eq_intensities hbase hindex hhighest hentry ratio
  have hlength := length_entry hentry
  refine ⟨hcolor, ?_⟩
  rw [hcolor]
  constructor
  · rintro h l v a b rfl rfl
    exact h
  · intro h
    by_cases hlab : ∃ l, base = lab l
    · obtain ⟨l, rfl⟩ := hlab
      obtain ⟨v, a, b, rfl⟩ := List.length_eq_three.mp hlength
      exact h l v a b rfl rfl
    · rw [spreadLevels_eq_map hbase (not_exists.mp hlab) hlength]

/-- The second color of a palette of inks. -/
theorem toRgb_indexed_ink :
    Bytes.slice? [0, 0, 0, 255, 64, 0, 128, 0] (1 * cmyk.components) ((1 + 1) * cmyk.components) =
        some [64, 0, 128, 0] ∧
      (indexed cmyk 1 [0, 0, 0, 255, 64, 0, 128, 0]).toRgb 1 [(1 : Nat).toFloat32] =
        cmyk.toRgb 1 (cmyk.spreadLevels [64, 0, 128, 0]) := by
  have hcmyk : cmyk.IsPlain := trivial
  have hentry : Bytes.slice? [0, 0, 0, 255, 64, 0, 128, 0] (1 * cmyk.components) ((1 + 1) * cmyk.components) =
      some [64, 0, 128, 0] := by decide
  refine ⟨hentry, (toRgb_indexed hcmyk (le_refl 1) (by decide) hentry 1).2.mpr ?_⟩
  exact fun l v a b hbase => nomatch hbase

/-- A space of a lightness and two components for the hue, under the white of the screen. -/
def screenLab : ColorSpace := lab ⟨Calibration.screenWhite, (-128, 127), (-128, 127)⟩

/-- The entry for white is almost black. -/
theorem not_forall_toRgb_indexed_eq :
    ¬ ∀ (base : ColorSpace) (highest index : Nat) (palette entry : Bytes) (ratio : Float32), base.IsPlain →
      index ≤ highest → highest < 256 →
      palette.slice? (index * base.components) ((index + 1) * base.components) = some entry →
      (indexed base highest palette).toRgb ratio [index.toFloat32] = base.toRgb ratio (base.spreadLevels entry) := by
  intro h
  have hlab : screenLab.IsPlain := trivial
  have hentry : Bytes.slice? [255, 128, 128] (0 * screenLab.components) ((0 + 1) * screenLab.components) =
      some [255, 128, 128] := by decide
  have hwhite := h screenLab 0 0 _ _ 1 hlab (le_refl 0) (by decide) hentry
  rw [toRgb_indexed_eq_intensities hlab (le_refl 0) (by decide) hentry] at hwhite
  have hdark : screenLab.toRgb 1 ([255, 128, 128].map Rgb.intensity) = ⟨6, 3, 2⟩ := by decide +kernel
  have hlight : screenLab.toRgb 1 (screenLab.spreadLevels [255, 128, 128]) = Rgb.white := by decide +kernel
  rw [hdark, hlight] at hwhite
  exact absurd hwhite (by decide)

end ColorSpace

end Folio
