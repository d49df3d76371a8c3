import Folio.Proofs.Image.Unfiltered
import Folio.Proofs.Single

/-!
# Ranges of transparent samples

The mask of an image may be a lowest and a highest sample for each component. The samples are not compared with
them, but colors with the colors of the lowest and of the highest samples. Main statement:
`MaskedImage.decode?_colorKey`. Of gray images and of images of red, green and blue, those pixels are hidden of which
each sample is in its range; of images of inks and of numbered colors, those of which each level of the color is
between those of the two colors.
-/

namespace Folio

/-! ## Lists -/

theorem mapM_eq_some_map {α β : Type} {f : α → Option β} {g : α → β} {xs : List α}
    (h : ∀ x ∈ xs, f x = some (g x)) : xs.mapM f = some (xs.map g) := by
  induction xs with
  | nil => rfl
  | cons x xs ih =>
    rw [List.mapM_cons, h x List.mem_cons_self, ih fun y hy => h y (List.mem_cons_of_mem x hy)]
    rfl

theorem getElem?_fitTo {α : Type} {count k : Nat} {filler a : α} {items : List α} (hk : k < count)
    (h : items[k]? = some a) : (fitTo count filler items)[k]? = some a := by
  obtain ⟨hlt, -⟩ := List.getElem?_eq_some_iff.mp h
  rw [fitTo, List.getElem?_append_left (by rw [List.length_take]; omega), List.getElem?_take_of_lt hk, h]

/-! ## Levels of samples -/

/-- The level that a sample of some bits stands for, where the samples are spread over all levels. -/
def sampleLevel (bits sample : Nat) : UInt8 := (sample * (255 / (2 ^ bits - 1))).toUInt8

theorem toNat_sampleLevel {bits sample : Nat} (hbits : bits ∈ [1, 2, 4, 8]) (h : sample < 2 ^ bits) :
    (sampleLevel bits sample).toNat = sample * (255 / (2 ^ bits - 1)) := by
  obtain ⟨-, hdvd⟩ := dvd_of_mem_depths hbits
  have hle : sample * (255 / (2 ^ bits - 1)) ≤ 255 :=
    (Nat.mul_le_mul_right _ (Nat.le_sub_one_of_lt h)).trans_eq (Nat.mul_div_cancel' hdvd)
  rw [sampleLevel, Nat.toUInt8, UInt8.toNat_ofNat', Nat.mod_eq_of_lt (Nat.lt_succ_of_le hle)]

/-- Greater samples stand for greater levels. -/
theorem sampleLevel_le_iff {bits s t : Nat} (hbits : bits ∈ [1, 2, 4, 8]) (hs : s < 2 ^ bits) (ht : t < 2 ^ bits) :
    sampleLevel bits s ≤ sampleLevel bits t ↔ s ≤ t := by
  have hunit : ∀ bits ∈ [1, 2, 4, 8], 0 < 255 / (2 ^ bits - 1) := by decide
  rw [UInt8.le_iff_toNat_le, toNat_sampleLevel hbits hs, toNat_sampleLevel hbits ht]
  exact Nat.mul_le_mul_right_iff (hunit bits hbits)

/-- A sample of eight bits is a level. -/
theorem sampleLevel_eight (level : UInt8) : sampleLevel 8 level.toNat = level := by
  have hunit : 255 / (2 ^ 8 - 1) = 1 := by decide
  rw [sampleLevel, hunit, Nat.mul_one]
  exact UInt8.ofNat_toNat

theorem spreadGray_eq {bits : Nat} (hbits : bits ∈ [1, 2, 4, 8]) :
    ∀ s < 2 ^ bits, BaseImage.spreadGray bits s = .gray (sampleLevel bits s) := by
  revert bits
  decide +kernel

/-- The value of a sample is the intensity of its level. -/
theorem level_apply_eq {bits : Nat} (hbits : bits ∈ [1, 2, 4, 8]) :
    ∀ s < 2 ^ bits, Rgb.level ((DecodeMap.ofInterval (0, 1) bits).apply s) = sampleLevel bits s := by
  revert bits
  decide +kernel

namespace DecodeMap

/-- The maps of samples to the values they have by default do not change if they are made for as many bits again. -/
theorem rescale_ofInterval {bits : Nat} {interval : Float32 × Float32} (hbits : bits ∈ [1, 2, 4, 8])
    (h : interval = (0, 1) ∨ interval = (0, ColorSpace.maxSample bits)) :
    (ofInterval interval bits).rescale bits bits = ofInterval interval bits := by
  have hstep : ((ofInterval interval bits).rescale bits bits).step = (ofInterval interval bits).step := by
    rcases h with rfl | rfl <;> revert bits <;> decide +kernel
  exact congrArg (DecodeMap.mk _) hstep

end DecodeMap

/-! ## Colors of pixels -/

/-- As many amounts of light or of ink as there are components are a color. -/
theorem ColorSpace.convert?_eq_some_toRgb {space : ColorSpace} (hspace : space = .rgb ∨ space = .cmyk)
    (ratio : Float32) {values : List Float32} (h : values.length = space.components) :
    space.convert? ratio values = some (space.toRgb ratio values) := by
  rw [toRgb, ← h, Single.fit_length]
  rcases hspace with rfl | rfl
  · match values, h with
    | [_, _, _], _ => rfl
  · match values, h with
    | [_, _, _, _], _ => rfl

namespace BaseImage

variable {i : BaseImage} {data : Bytes} {x y : Nat} {ratio : Float32}

/-- Whether an image is in a space of the device or in one of numbered colors, and its samples of at most a byte
stand for what they do by default. -/
structure IsOrdinary (i : BaseImage) : Prop where
  bits_mem : i.bits ∈ [1, 2, 4, 8]
  space_eq : i.space = .gray ∨ i.space = .rgb ∨ i.space = .cmyk ∨
    ∃ base highest palette, i.space = .indexed base highest palette
  decode_eq : i.decode = (i.space.defaultDecode i.bits).map fun interval => .ofInterval interval i.bits

theorem IsOrdinary.length_decode (h : i.IsOrdinary) : i.decode.length = i.space.components := by
  rw [h.decode_eq, List.length_map, i.space.length_defaultDecode]

theorem IsOrdinary.decodeFor_bits_eq (h : i.IsOrdinary) : i.decodeFor i.bits = i.decode := by
  rw [decodeFor, h.decode_eq, List.map_map]
  refine List.map_congr_left fun interval hinterval => DecodeMap.rescale_ofInterval h.bits_mem ?_
  rcases h.space_eq with hspace | hspace | hspace | ⟨base, highest, palette, hspace⟩ <;> rw [hspace] at hinterval
  · exact .inl (List.eq_of_mem_replicate hinterval)
  · exact .inl (List.eq_of_mem_replicate hinterval)
  · exact .inl (List.eq_of_mem_replicate hinterval)
  · exact .inr (List.mem_singleton.mp hinterval)

/-- The samples of a pixel in some data. -/
def samplesAt (i : BaseImage) (data : Bytes) (x y : Nat) : List Nat :=
  (List.range i.space.components).map (i.sample data x y)

theorem sample_lt (i : BaseImage) (data : Bytes) (x y component : Nat) : i.sample data x y component < 2 ^ i.bits :=
  Sample.stored_lt _ _ _ _ _

theorem samplesAt_of_components {count : Nat} (h : i.space.components = count) (data : Bytes) (x y : Nat) :
    i.samplesAt data x y = (List.range count).map (i.sample data x y) := by
  rw [samplesAt, h]

/-- The color of a sample of a gray image. -/
theorem IsOrdinary.boundColor_gray (h : i.IsOrdinary) (hspace : i.space = .gray) (ratio : Float32) {s : Nat}
    (hs : s < 2 ^ i.bits) : ColorKey.boundColor i ratio [s] = .gray (sampleLevel i.bits s) := by
  rw [ColorKey.boundColor, h.decode_eq, hspace, ← level_apply_eq h.bits_mem s hs]
  rfl

/-- The color of three samples that stand for levels. -/
theorem IsOrdinary.boundColor_rgb (h : i.IsOrdinary) (hspace : i.space = .rgb) (ratio : Float32) {s t u : Nat}
    (hs : s < 2 ^ i.bits) (ht : t < 2 ^ i.bits) (hu : u < 2 ^ i.bits) :
    ColorKey.boundColor i ratio [s, t, u] =
      ⟨sampleLevel i.bits s, sampleLevel i.bits t, sampleLevel i.bits u⟩ := by
  rw [ColorKey.boundColor, h.decode_eq, hspace, ← level_apply_eq h.bits_mem s hs, ← level_apply_eq h.bits_mem t ht,
    ← level_apply_eq h.bits_mem u hu]
  rfl

/-! ### Pixels of several samples -/

theorem getElem?_groups {count fuel k : Nat} (hk : k < fuel) (items : List Nat) :
    (groups count fuel items)[k]? = some ((items.drop (k * count)).take count) := by
  induction fuel generalizing k items with
  | zero => cases hk
  | succ fuel ih =>
    cases k with
    | zero => rw [groups, List.getElem?_cons_zero, Nat.zero_mul, List.drop_zero]
    | succ k =>
      rw [groups, List.getElem?_cons_succ, ih (Nat.lt_of_succ_lt_succ hk), List.drop_drop, Nat.succ_mul,
        Nat.add_comm count]

/-- As many samples as all pixels have are divided into pixels that are complete. -/
theorem length_of_mem_groups {count fuel : Nat} {items group : List Nat} (h : items.length = fuel * count)
    (hgroup : group ∈ groups count fuel items) : group.length = count := by
  induction fuel generalizing items with
  | zero => cases hgroup
  | succ fuel ih =>
    rw [Nat.succ_mul] at h
    rcases List.mem_cons.mp hgroup with rfl | hgroup
    · rw [List.length_take]
      omega
    · exact ih (by rw [List.length_drop]; omega) hgroup

/-- The samples of a pixel are next to each other. -/
theorem take_drop_unpack (hbits : i.bits ∈ [1, 2, 4, 8]) (hx : x < i.width) (hy : y < i.height) (data : Bytes) :
    ((Sample.unpack i.bits (i.width * i.space.components) i.height data).drop
        ((y * i.width + x) * i.space.components)).take i.space.components = i.samplesAt data x y := by
  obtain ⟨hdvd, -⟩ := dvd_of_mem_depths hbits
  refine List.ext_getElem? fun component => ?_
  rw [List.getElem?_take, samplesAt, List.getElem?_map]
  split
  · rename_i hcomponent
    have hcolumn : x * i.space.components + component < i.width * i.space.components :=
      (Bilevel.Bitmap.index_lt hcomponent hx).trans_eq (Nat.mul_comm _ _)
    have hplace : (y * i.width + x) * i.space.components + component =
        y * (i.width * i.space.components) + (x * i.space.components + component) := by ring
    rw [List.getElem?_drop, hplace, Sample.getElem?_unpack hdvd hcolumn hy, List.getElem?_range hcomponent]
    rfl
  · rename_i hcomponent
    rw [List.getElem?_eq_none (by rw [List.length_range]; omega)]
    rfl

/-- Where all samples together are colors, a pixel has the color of its samples. -/
theorem IsOrdinary.getElem?_groupColors (h : i.IsOrdinary) (hspace : i.space = .rgb ∨ i.space = .cmyk)
    (hx : x < i.width) (hy : y < i.height) (ratio : Float32) (data : Bytes) :
    (i.groupColors i.decode ratio
        (Sample.unpack i.bits (i.width * i.space.components) i.height data))[y * i.width + x]? =
      some (ColorKey.boundColor i ratio (i.samplesAt data x y)) := by
  have hplace : y * i.width + x < i.size := Bilevel.Bitmap.index_lt hx hy
  have hlength : (Sample.unpack i.bits (i.width * i.space.components) i.height data).length =
      i.size * i.space.components := by
    rw [Sample.length_unpack, size]
    ring
  have hall : ∀ pixel ∈ groups i.space.components i.size
      (Sample.unpack i.bits (i.width * i.space.components) i.height data),
      i.space.convert? ratio (List.zipWith DecodeMap.apply i.decode pixel) =
        some (ColorKey.boundColor i ratio pixel) := by
    intro pixel hpixel
    refine ColorSpace.convert?_eq_some_toRgb hspace ratio ?_
    rw [List.length_zipWith, h.length_decode, length_of_mem_groups hlength hpixel, Nat.min_self]
  unfold groupColors
  dsimp only
  rw [mapM_eq_some_map hall, Option.getD_some, List.getElem?_map, getElem?_groups hplace,
    take_drop_unpack h.bits_mem hx hy, Option.map_some]

theorem packedColors_eq_groupColors {bits : Nat} (hlevels : i.levelColors? (i.decodeFor bits) bits ratio data = none)
    (hmaps : 2 ≤ (i.decodeFor bits).length) :
    i.packedColors bits ratio data = i.groupColors (i.decodeFor bits) ratio
      (Sample.unpack bits (i.width * i.space.components) i.height data) := by
  unfold packedColors
  dsimp only
  rw [hlevels]
  dsimp only
  split
  · rename_i map hmap
    rw [hmap, List.length_singleton] at hmaps
    omega
  · rfl

/-! ### All pixels -/

/-- Whether the color of a pixel is that of its samples. The levels of inks are converted on their own. -/
structure ShowsSamples (i : BaseImage) (ratio : Float32) (samples : List Nat) (color : Option Rgb) : Prop where
  isSome : color.isSome
  eq_boundColor : i.space ≠ .cmyk ∨ i.bits ≠ 8 → color = some (ColorKey.boundColor i ratio samples)

theorem showsSamples_of_eq {samples : List Nat} {color : Option Rgb}
    (h : color = some (ColorKey.boundColor i ratio samples)) : i.ShowsSamples ratio samples color :=
  ⟨h ▸ rfl, fun _ => h⟩

theorem IsOrdinary.getElem?_packedColors_gray (h : i.IsOrdinary) (hspace : i.space = .gray) (hx : x < i.width)
    (hy : y < i.height) (ratio : Float32) (data : Bytes) :
    (i.packedColors i.bits ratio data)[y * i.width + x]? =
      some (ColorKey.boundColor i ratio (i.samplesAt data x y)) := by
  have hmaps : i.decodeFor i.bits = [(DecodeMap.ofInterval (0, 1) i.bits).rescale i.bits i.bits] := by
    rw [decodeFor, h.decode_eq, hspace]
    rfl
  have hsample := i.sample_lt data x y 0
  have hcomponents : i.space.components = 1 := by
    rw [hspace]
    rfl
  have hsamples : i.samplesAt data x y = [i.sample data x y 0] := samplesAt_of_components hcomponents data x y
  rw [BaseImage.getElem?_packedColors_gray hspace hmaps h.bits_mem (DecodeMap.isIdentity_rescale h.bits_mem) hx hy,
    ← sample_of_gray hspace, spreadGray_eq h.bits_mem _ hsample, hsamples, h.boundColor_gray hspace ratio hsample]

theorem IsOrdinary.getElem?_packedColors_indexed (h : i.IsOrdinary) {base : ColorSpace} {highest : Nat}
    {palette : Bytes} (hspace : i.space = .indexed base highest palette) (hx : x < i.width) (hy : y < i.height)
    (ratio : Float32) (data : Bytes) :
    (i.packedColors i.bits ratio data)[y * i.width + x]? =
      some (ColorKey.boundColor i ratio (i.samplesAt data x y)) := by
  obtain ⟨hdvd, -⟩ := dvd_of_mem_depths h.bits_mem
  have hcomponents : i.space.components = 1 := by
    rw [hspace]
    rfl
  have hdecode : i.decode = [.ofInterval (0, ColorSpace.maxSample i.bits) i.bits] := by
    rw [h.decode_eq, hspace]
    rfl
  have hlevels : i.levelColors? i.decode i.bits ratio data = none := by
    unfold levelColors?
    rw [hspace]
    exact ite_self none
  have hsamples : i.samplesAt data x y = [Sample.stored i.bits i.width data x y] := by
    rw [samplesAt_of_components hcomponents, List.range_one, List.map_singleton, sample, hcomponents, Nat.mul_one,
      Nat.mul_one, Nat.add_zero]
  unfold packedColors
  dsimp only
  rw [h.decodeFor_bits_eq, hlevels, hdecode]
  dsimp only
  rw [if_pos (Nat.le_of_dvd (Nat.succ_pos 7) hdvd), List.getElem?_map, hcomponents, Nat.mul_one,
    Sample.getElem?_unpack hdvd hx hy, hsamples, ColorKey.boundColor, hdecode, hspace]
  rfl

theorem IsOrdinary.all_isIdentity (h : i.IsOrdinary) (hspace : i.space = .rgb ∨ i.space = .cmyk)
    (hbits : i.bits = 8) : (i.decodeFor 8).all (·.isIdentity 8) = true := by
  rw [← hbits, h.decodeFor_bits_eq, h.decode_eq, hbits]
  rcases hspace with hspace | hspace <;> rw [hspace] <;> decide +kernel

theorem IsOrdinary.getElem?_packedColors_levels (h : i.IsOrdinary) (hspace : i.space = .rgb) (hbits : i.bits = 8)
    (hx : x < i.width) (hy : y < i.height) (ratio : Float32) (data : Bytes) :
    (i.packedColors 8 ratio data)[y * i.width + x]? = some (ColorKey.boundColor i ratio (i.samplesAt data x y)) := by
  obtain ⟨red, green, blue, hcolor, hred, hgreen, hblue⟩ :=
    getElem?_packedColors_rgb hspace (h.all_isIdentity (.inl hspace) hbits) hx hy ratio data
  have hsample (component : Nat) :
      i.sample data x y component = Sample.stored 8 (i.width * 3) data (x * 3 + component) y := by
    rw [sample, hspace, hbits]
    rfl
  have hsamples : i.samplesAt data x y = [red.toNat, green.toNat, blue.toNat] := by
    rw [samplesAt_of_components (congrArg ColorSpace.components hspace), hred, hgreen, hblue]
    exact congrArg (List.map · [0, 1, 2]) (funext hsample)
  have hlt (level : UInt8) : level.toNat < 2 ^ i.bits := hbits ▸ level.toNat_lt
  rw [hcolor, hsamples, h.boundColor_rgb hspace ratio (hlt red) (hlt green) (hlt blue), hbits, sampleLevel_eight,
    sampleLevel_eight, sampleLevel_eight]

theorem IsOrdinary.isSome_packedColors_inks (h : i.IsOrdinary) (hspace : i.space = .cmyk) (hbits : i.bits = 8)
    (hx : x < i.width) (hy : y < i.height) (ratio : Float32) (data : Bytes) :
    (i.packedColors 8 ratio data)[y * i.width + x]?.isSome := by
  have hplace : y * i.width + x < i.size := Bilevel.Bitmap.index_lt hx hy
  obtain ⟨colors, hcolors⟩ : ∃ colors, i.levelColors? (i.decodeFor 8) 8 ratio data = some colors := by
    unfold levelColors?
    rw [if_pos ⟨rfl, h.all_isIdentity (.inr hspace) hbits⟩, hspace]
    exact ⟨_, rfl⟩
  rw [packedColors, hcolors]
  exact Option.isSome_iff_exists.mpr ⟨_, List.getElem?_eq_getElem (length_of_levelColors? hcolors ▸ hplace)⟩

theorem IsOrdinary.showsSamples_of_several (h : i.IsOrdinary) (hspace : i.space = .rgb ∨ i.space = .cmyk)
    (hx : x < i.width) (hy : y < i.height) (ratio : Float32) (data : Bytes) :
    i.ShowsSamples ratio (i.samplesAt data x y) (i.packedColors i.bits ratio data)[y * i.width + x]? := by
  by_cases hbits : i.bits = 8
  · rcases hspace with hspace | hspace
    · exact showsSamples_of_eq (hbits ▸ h.getElem?_packedColors_levels hspace hbits hx hy ratio data)
    · refine ⟨?_, fun hother => absurd hbits (hother.resolve_left (not_not_intro hspace))⟩
      exact hbits ▸ h.isSome_packedColors_inks hspace hbits hx hy ratio data
  · have hlevels : i.levelColors? (i.decodeFor i.bits) i.bits ratio data = none :=
      if_neg fun hlevel => hbits hlevel.1
    have hmaps : 2 ≤ (i.decodeFor i.bits).length := by
      rw [h.decodeFor_bits_eq, h.length_decode]
      rcases hspace with hspace | hspace <;> rw [hspace] <;> decide
    refine showsSamples_of_eq ?_
    rw [packedColors_eq_groupColors hlevels hmaps, h.decodeFor_bits_eq, h.getElem?_groupColors hspace hx hy]

/-- The color of a pixel is that of its samples. -/
theorem IsOrdinary.showsSamples (h : i.IsOrdinary) (hx : x < i.width) (hy : y < i.height) (ratio : Float32)
    (data : Bytes) :
    i.ShowsSamples ratio (i.samplesAt data x y) (i.packedColors i.bits ratio data)[y * i.width + x]? := by
  rcases h.space_eq with hspace | hspace | hspace | ⟨base, highest, palette, hspace⟩
  · exact showsSamples_of_eq (h.getElem?_packedColors_gray hspace hx hy ratio data)
  · exact h.showsSamples_of_several (.inl hspace) hx hy ratio data
  · exact h.showsSamples_of_several (.inr hspace) hx hy ratio data
  · exact showsSamples_of_eq (h.getElem?_packedColors_indexed hspace hx hy ratio data)

end BaseImage

/-! ## Ranges -/

namespace ColorKey

/-- A lowest and a highest sample for each component, as they are stated for an image. -/
def rangeItems (ranges : List (Nat × Nat)) : List Object :=
  ranges.flatMap fun range => [.ofInt (.ofNat range.1), .ofInt (.ofNat range.2)]

/-- The colors between two, where each level is between those of the two. -/
def between (a b : Rgb) : ColorKey where
  low := ⟨min a.red b.red, min a.green b.green, min a.blue b.blue⟩
  high := ⟨max a.red b.red, max a.green b.green, max a.blue b.blue⟩

/-- Whether each sample is in the range of its component. -/
def InRanges : List (Nat × Nat) → List Nat → Prop :=
  List.Forall₂ fun range sample => range.1 ≤ sample ∧ sample ≤ range.2

/-- A sample is read off the number that states it. -/
theorem sample_of_ofNat : ∀ s < 256, (Single.max (Number.integer (.ofNat s)).toFloat32 0).toUInt32.toNat = s := by
  decide +kernel

theorem pairs_float32s_rangeItems (ranges : List (Nat × Nat)) :
    Single.pairs (Object.float32s (rangeItems ranges)) =
      ranges.map fun range => ((Number.integer (.ofNat range.1)).toFloat32,
        (Number.integer (.ofNat range.2)).toFloat32) := by
  induction ranges with
  | nil => rfl
  | cons range ranges ih =>
    rw [List.map_cons, ← ih]
    rfl

theorem ofItems?_rangeItems {i : BaseImage} {ranges : List (Nat × Nat)} (hlength : ranges.length = i.space.components)
    (hdecode : i.decode.length = i.space.components) (hranges : ∀ range ∈ ranges, range.1 < 256 ∧ range.2 < 256)
    (ratio : Float32) :
    ofItems? (rangeItems ranges) i ratio =
      some (between (boundColor i ratio (ranges.map Prod.fst)) (boundColor i ratio (ranges.map Prod.snd))) := by
  have hsamples (bound : Nat × Nat → Nat) (hbound : ∀ range ∈ ranges, bound range < 256) :
      (ranges.map fun range => (Single.max (Number.integer (.ofNat (bound range))).toFloat32 0).toUInt32.toNat) =
        ranges.map bound :=
    List.map_congr_left fun range hrange => sample_of_ofNat _ (hbound range hrange)
  unfold ofItems?
  dsimp only
  rw [pairs_float32s_rangeItems, List.take_of_length_le (by rw [List.length_map, hlength]), List.length_map, hlength,
    hdecode, List.map_map, List.map_map, ← hsamples Prod.fst fun range hrange => (hranges range hrange).1,
    ← hsamples Prod.snd fun range hrange => (hranges range hrange).2, guard, if_pos ⟨le_rfl, le_rfl⟩]
  rfl

theorem contains_between {a b c : Rgb} (hred : a.red ≤ b.red) (hgreen : a.green ≤ b.green) (hblue : a.blue ≤ b.blue) :
    (between a b).contains c = true ↔
      (a.red ≤ c.red ∧ c.red ≤ b.red) ∧ (a.green ≤ c.green ∧ c.green ≤ b.green) ∧
        a.blue ≤ c.blue ∧ c.blue ≤ b.blue := by
  have hmin {s t : UInt8} (h : s ≤ t) : min s t = s := if_pos h
  have hmax {s t : UInt8} (h : s ≤ t) : max s t = t := if_pos h
  unfold between contains
  simp only [hmin hred, hmin hgreen, hmin hblue, hmax hred, hmax hgreen, hmax hblue, Bool.and_eq_true,
    decide_eq_true_eq, and_assoc]

end ColorKey

namespace BaseImage

variable {i : BaseImage} {ratio : Float32}

/-- The colors that are hidden for some ranges of samples. -/
def keyOf (i : BaseImage) (ratio : Float32) (ranges : List (Nat × Nat)) : ColorKey :=
  .between (ColorKey.boundColor i ratio (ranges.map Prod.fst)) (ColorKey.boundColor i ratio (ranges.map Prod.snd))

/-- A level is between those of a lowest and a highest sample if its sample is. -/
theorem sampleLevel_between_iff {bits s : Nat} {range : Nat × Nat} (hbits : bits ∈ [1, 2, 4, 8])
    (hrange : range.1 ≤ range.2 ∧ range.2 < 2 ^ bits) (hs : s < 2 ^ bits) :
    (sampleLevel bits range.1 ≤ sampleLevel bits s ∧ sampleLevel bits s ≤ sampleLevel bits range.2) ↔
      range.1 ≤ s ∧ s ≤ range.2 := by
  rw [sampleLevel_le_iff hbits (hrange.1.trans_lt hrange.2) hs, sampleLevel_le_iff hbits hs hrange.2]

theorem IsOrdinary.contains_keyOf_gray (h : i.IsOrdinary) (hspace : i.space = .gray) {range : Nat × Nat} {s : Nat}
    (hrange : range.1 ≤ range.2 ∧ range.2 < 2 ^ i.bits) (hs : s < 2 ^ i.bits) :
    (i.keyOf ratio [range]).contains (ColorKey.boundColor i ratio [s]) = true ↔
      ColorKey.InRanges [range] [s] := by
  have hlow : range.1 < 2 ^ i.bits := hrange.1.trans_lt hrange.2
  have hle := (sampleLevel_le_iff h.bits_mem hlow hrange.2).mpr hrange.1
  show (ColorKey.between (ColorKey.boundColor i ratio [range.1])
    (ColorKey.boundColor i ratio [range.2])).contains _ = true ↔ _
  rw [h.boundColor_gray hspace ratio hlow, h.boundColor_gray hspace ratio hrange.2, h.boundColor_gray hspace ratio hs,
    ColorKey.contains_between hle hle hle, ColorKey.InRanges, List.forall₂_cons]
  unfold Rgb.gray
  rw [sampleLevel_between_iff h.bits_mem hrange hs]
  exact ⟨fun hall => ⟨hall.1, .nil⟩, fun hall => ⟨hall.1, hall.1, hall.1⟩⟩

theorem IsOrdinary.contains_keyOf_rgb (h : i.IsOrdinary) (hspace : i.space = .rgb) {red green blue : Nat × Nat}
    {s t u : Nat} (hred : red.1 ≤ red.2 ∧ red.2 < 2 ^ i.bits) (hgreen : green.1 ≤ green.2 ∧ green.2 < 2 ^ i.bits)
    (hblue : blue.1 ≤ blue.2 ∧ blue.2 < 2 ^ i.bits) (hs : s < 2 ^ i.bits) (ht : t < 2 ^ i.bits)
    (hu : u < 2 ^ i.bits) :
    (i.keyOf ratio [red, green, blue]).contains (ColorKey.boundColor i ratio [s, t, u]) = true ↔
      ColorKey.InRanges [red, green, blue] [s, t, u] := by
  have hlow {range : Nat × Nat} (hrange : range.1 ≤ range.2 ∧ range.2 < 2 ^ i.bits) : range.1 < 2 ^ i.bits :=
    hrange.1.trans_lt hrange.2
  have hle {range : Nat × Nat} (hrange : range.1 ≤ range.2 ∧ range.2 < 2 ^ i.bits) :
      sampleLevel i.bits range.1 ≤ sampleLevel i.bits range.2 :=
    (sampleLevel_le_iff h.bits_mem (hlow hrange) hrange.2).mpr hrange.1
  show (ColorKey.between (ColorKey.boundColor i ratio [red.1, green.1, blue.1])
    (ColorKey.boundColor i ratio [red.2, green.2, blue.2])).contains _ = true ↔ _
  rw [h.boundColor_rgb hspace ratio (hlow hred) (hlow hgreen) (hlow hblue),
    h.boundColor_rgb hspace ratio hred.2 hgreen.2 hblue.2, h.boundColor_rgb hspace ratio hs ht hu,
    ColorKey.contains_between (hle hred) (hle hgreen) (hle hblue), ColorKey.InRanges]
  dsimp only
  rw [sampleLevel_between_iff h.bits_mem hred hs, sampleLevel_between_iff h.bits_mem hgreen ht,
    sampleLevel_between_iff h.bits_mem hblue hu]
  simp only [List.forall₂_cons, List.Forall₂.nil, and_true]

/-- Of gray and of red, green and blue, the hidden colors are those of samples in the ranges. -/
theorem IsOrdinary.contains_keyOf_iff (h : i.IsOrdinary) (hspace : i.space = .gray ∨ i.space = .rgb)
    {ranges : List (Nat × Nat)} (hlength : ranges.length = i.space.components)
    (hranges : ∀ range ∈ ranges, range.1 ≤ range.2 ∧ range.2 < 2 ^ i.bits) (ratio : Float32) (data : Bytes)
    (x y : Nat) :
    (i.keyOf ratio ranges).contains (ColorKey.boundColor i ratio (i.samplesAt data x y)) = true ↔
      ColorKey.InRanges ranges (i.samplesAt data x y) := by
  have hlt := i.sample_lt data x y
  rcases hspace with hspace | hspace
  · have hcount : i.space.components = 1 := congrArg ColorSpace.components hspace
    obtain ⟨range, rfl⟩ := List.length_eq_one_iff.mp (hlength.trans hcount)
    rw [samplesAt_of_components hcount]
    exact h.contains_keyOf_gray hspace (hranges _ List.mem_cons_self) (hlt 0)
  · have hcount : i.space.components = 3 := congrArg ColorSpace.components hspace
    obtain ⟨red, green, blue, rfl⟩ := List.length_eq_three.mp (hlength.trans hcount)
    rw [samplesAt_of_components hcount]
    simp only [List.forall_mem_cons] at hranges
    obtain ⟨hred, hgreen, hblue, -⟩ := hranges
    exact h.contains_keyOf_rgb hspace hred hgreen hblue (hlt 0) (hlt 1) (hlt 2)

/-- What ranges of hidden samples make of a pixel: it is hidden if its color is between those of the lowest and of the
highest samples, and opaque otherwise. The color is that of its samples, where nothing is said of inks that take a byte
each. Gray or red, green and blue are hidden if the samples are in the ranges. -/
structure Keyed (i : BaseImage) (ratio : Float32) (ranges : List (Nat × Nat)) (samples : List Nat) (pixel : Pixel) :
    Prop where
  alpha_eq : pixel.alpha = if (i.keyOf ratio ranges).contains pixel.color then 0 else 255
  color_eq : i.space ≠ .cmyk ∨ i.bits ≠ 8 → pixel.color = ColorKey.boundColor i ratio samples
  hidden_iff : i.space = .gray ∨ i.space = .rgb →
    (pixel.alpha = 0 ↔ ColorKey.InRanges ranges samples) ∧
      (pixel.alpha = 255 ↔ ¬ ColorKey.InRanges ranges samples)

theorem IsOrdinary.keyed (h : i.IsOrdinary) {ranges : List (Nat × Nat)} (hlength : ranges.length = i.space.components)
    (hranges : ∀ range ∈ ranges, range.1 ≤ range.2 ∧ range.2 < 2 ^ i.bits) {data : Bytes} {x y : Nat} {color : Rgb}
    (hcolor : i.ShowsSamples ratio (i.samplesAt data x y) (some color)) :
    i.Keyed ratio ranges (i.samplesAt data x y) ⟨color, (i.keyOf ratio ranges).alpha color⟩ := by
  refine ⟨rfl, fun hplain => Option.some.inj (hcolor.eq_boundColor hplain), fun hspace => ?_⟩
  have hplain : i.space ≠ .cmyk := by rcases hspace with hspace | hspace <;> rw [hspace] <;> exact nofun
  have hiff := h.contains_keyOf_iff hspace hlength hranges ratio data x y
  rw [← Option.some.inj (hcolor.eq_boundColor (.inl hplain))] at hiff
  rw [← hiff]
  dsimp only [ColorKey.alpha]
  by_cases hhidden : (i.keyOf ratio ranges).contains color = true
  · rw [if_pos hhidden]
    exact ⟨iff_of_true rfl hhidden, iff_of_false (by decide) (not_not_intro hhidden)⟩
  · rw [if_neg hhidden]
    exact ⟨iff_of_false (by decide) hhidden, iff_of_true rfl hhidden⟩

end BaseImage

/-! ## Images with ranges -/

namespace MaskedImage

variable {m : MaskedImage} {s : Stream} {given : Option ColorSpace} {r : Resources} {config : ImageConfig}
  {data : Bytes} {x y : Nat}

/-- Without a soft mask, an array that is stated as the mask is the key. -/
theorem mask_eq_of_ofStream? {items : List Object} (hm : ofStream? s given r config = some m)
    (hsoft : m.softMask = none) (hmask : (s.dict.get? "Mask").bind r.store.resolve? = some (.array items)) :
    m.mask = (ColorKey.ofItems? items m.base config.blackRatio).map .colorKey := by
  obtain ⟨hstream, -, -⟩ := BaseImage.eq_of_ofStream? (base_of_ofStream? hm)
  obtain ⟨base, -, hm⟩ := Option.bind_eq_some_iff.mp hm
  obtain rfl := Option.some.inj hm
  dsimp only at hsoft hstream ⊢
  rw [hsoft, explicitMask?, hstream, hmask]
  rfl

/-- The pixels whose colors the key holds are hidden, and the others are opaque. -/
theorem getElem?_pixels_colorKey {key : ColorKey} {bits : Nat} {store : Store} {color : Rgb}
    (hsoft : m.softMask = none) (hmask : m.mask = some (.colorKey key)) (hx : x < m.base.width)
    (hy : y < m.base.height)
    (hcolor : (m.base.packedColors bits config.blackRatio data)[y * m.base.width + x]? = some color) :
    (m.pixels (.packed bits data) store config)[y * m.base.width + x]? = some ⟨color, key.alpha color⟩ := by
  have hplace : y * m.base.width + x < m.base.size := Bilevel.Bitmap.index_lt hx hy
  have halphas (colors : List Rgb) : m.alphas? colors none store config = some (colors.map key.alpha) := by
    unfold alphas?
    rw [hsoft, hmask]
    cases m.base.hasCodedAlpha <;> rfl
  have halpha : (fitTo m.base.size 255 ((m.base.packedColors bits config.blackRatio data).map key.alpha))[
      y * m.base.width + x]? = some (key.alpha color) :=
    getElem?_fitTo hplace (by rw [List.getElem?_map, hcolor, Option.map_some])
  unfold pixels
  dsimp only
  rw [halphas, Option.getD_some, List.getElem?_zipWith]
  unfold BaseImage.colorsOf
  dsimp only
  rw [hcolor, halpha]

/-- An image without filters and without soft mask, in a space of the device or in one of numbered colors, of which
a range of samples is hidden for each component. -/
theorem decode?_colorKey {ranges : List (Nat × Nat)} (hm : ofStream? s given r config = some m)
    (hfilters : s.filters r.store = .ok []) (hdata : s.decrypted r.store = .ok data)
    (hstencil : m.base.isStencil = false) (hsoft : m.softMask = none) (hbits : m.base.bits ∈ [1, 2, 4, 8])
    (hspace : m.base.space = .gray ∨ m.base.space = .rgb ∨ m.base.space = .cmyk ∨
      ∃ base highest palette, m.base.space = .indexed base highest palette)
    (hintervals : m.base.intervals r.store = m.base.space.defaultDecode m.base.bits)
    (hmask : (s.dict.get? "Mask").bind r.store.resolve? = some (.array (ColorKey.rangeItems ranges)))
    (hlength : ranges.length = m.base.space.components)
    (hranges : ∀ range ∈ ranges, range.1 ≤ range.2 ∧ range.2 < 2 ^ m.base.bits) (fill : Rgb) :
    ∃ raster, m.decode? fill r.store config = some raster ∧
      raster.width = m.base.width ∧ raster.height = m.base.height ∧
      ∀ x y, x < m.base.width → y < m.base.height →
        ∃ pixel, raster.pixel? x y = some pixel ∧
          m.base.Keyed config.blackRatio ranges (m.base.samplesAt data x y) pixel := by
  obtain ⟨-, -, hdecode⟩ := BaseImage.eq_of_ofStream? (base_of_ofStream? hm)
  rw [hintervals] at hdecode
  have hordinary : m.base.IsOrdinary := ⟨hbits, hspace, hdecode⟩
  have hsmall : 2 ^ m.base.bits ≤ 256 := (by decide : ∀ bits ∈ [1, 2, 4, 8], 2 ^ bits ≤ 256) _ hbits
  have hbytes : ∀ range ∈ ranges, range.1 < 256 ∧ range.2 < 256 := by
    intro range hrange
    have hbounds := hranges range hrange
    omega
  have hkey : m.mask = some (.colorKey (m.base.keyOf config.blackRatio ranges)) := by
    rw [mask_eq_of_ofStream? hm hsoft hmask, ColorKey.ofItems?_rangeItems hlength hordinary.length_decode hbytes]
    rfl
  have hshown := decode?_of_no_filters hm hfilters hdata fill
  rw [hstencil, if_neg Bool.false_ne_true] at hshown
  refine ⟨_, hshown, rfl, rfl, fun x y hx hy => ?_⟩
  have hshows := hordinary.showsSamples hx hy config.blackRatio data
  obtain ⟨color, hcolor⟩ := Option.isSome_iff_exists.mp hshows.isSome
  refine ⟨_, ?_, hordinary.keyed hlength hranges (hcolor ▸ hshows)⟩
  rw [Raster.pixel?, if_pos hx]
  exact getElem?_pixels_colorKey hsoft hkey hx hy hcolor

/-- A gray image of the four samples of two bits, of which those from one to two are hidden. -/
def hiddenMiddle : Stream where
  dict := .ofList [("BitsPerComponent", .ofInt 2), ("ColorSpace", .name "DeviceGray"), ("Height", .ofInt 1),
    ("Mask", .array (ColorKey.rangeItems [(1, 2)])), ("Width", .ofInt 4)]
  data := [0x1B]
  reference := none

theorem decode?_colorKey_hiddenMiddle :
    let page := Resources.ofDict .empty .empty
    ∃ m raster, ofStream? hiddenMiddle none page {} = some m ∧ m.decode? .white page.store {} = some raster ∧
      ∃ hidden shown, raster.pixel? 1 0 = some hidden ∧ hidden.alpha = 0 ∧
        raster.pixel? 3 0 = some shown ∧ shown.alpha = 255 := by
  intro page
  let base : BaseImage := ⟨4, 1, 2, .gray, [.ofInterval (0, 1) 2], false, false, true, hiddenMiddle⟩
  let key := ColorKey.ofItems? (ColorKey.rangeItems [(1, 2)]) base ({} : ImageConfig).blackRatio
  have hm : ofStream? hiddenMiddle none page {} = some ⟨base, key.map .colorKey, none⟩ := rfl
  have hintervals : base.intervals page.store = [(0, 1)] := BaseImage.intervals_of_not_stated (.inl rfl) rfl
  obtain ⟨raster, hraster, -, -, hkeyed⟩ :=
    decode?_colorKey hm rfl rfl rfl rfl (by decide) (.inl rfl) hintervals rfl rfl (by decide) .white
  obtain ⟨hidden, hhidden, hmiddle⟩ := hkeyed 1 0 (by decide) (by decide)
  obtain ⟨shown, hshown, hend⟩ := hkeyed 3 0 (by decide) (by decide)
  have hone : base.samplesAt hiddenMiddle.data 1 0 = [1] := by decide
  have hthree : base.samplesAt hiddenMiddle.data 3 0 = [3] := by decide
  refine ⟨_, raster, hm, hraster, hidden, shown, hhidden, ?_, hshown, ?_⟩
  · refine (hmiddle.hidden_iff (.inl rfl)).1.mpr ?_
    rw [hone]
    exact .cons ⟨by decide, by decide⟩ .nil
  · refine (hend.hidden_iff (.inl rfl)).2.mpr ?_
    rw [hthree]
    rintro (_ | ⟨⟨-, hle⟩, -⟩)
    exact absurd hle (by decide)

/-- An image of two numbered colors, which are both black, and of which the first is hidden. -/
def twoBlacks : Stream where
  dict := .ofList [("BitsPerComponent", .ofInt 1),
    ("ColorSpace", .array [.name "Indexed", .name "DeviceGray", .ofInt 1, .str ⟨.literal [0, 0], none⟩]),
    ("Height", .ofInt 1), ("Mask", .array (ColorKey.rangeItems [(0, 0)])), ("Width", .ofInt 2)]
  data := [0x40]
  reference := none

/-- Equal colors are hidden together, whichever of them is in the range. -/
theorem not_forall_hidden_iff :
    ¬ ∀ (s : Stream) (given : Option ColorSpace) (r : Resources) (config : ImageConfig) (m : MaskedImage)
      (data : Bytes) (ranges : List (Nat × Nat)) (fill : Rgb),
      ofStream? s given r config = some m → s.filters r.store = .ok [] → s.decrypted r.store = .ok data →
      m.base.isStencil = false → m.softMask = none → m.base.bits ∈ [1, 2, 4, 8] →
      (m.base.space = .gray ∨ m.base.space = .rgb ∨ m.base.space = .cmyk ∨
        ∃ base highest palette, m.base.space = .indexed base highest palette) →
      m.base.intervals r.store = m.base.space.defaultDecode m.base.bits →
      (s.dict.get? "Mask").bind r.store.resolve? = some (.array (ColorKey.rangeItems ranges)) →
      ranges.length = m.base.space.components →
      (∀ range ∈ ranges, range.1 ≤ range.2 ∧ range.2 < 2 ^ m.base.bits) →
      ∃ raster, m.decode? fill r.store config = some raster ∧
        ∀ x y, x < m.base.width → y < m.base.height →
          ∃ pixel, raster.pixel? x y = some pixel ∧
            (pixel.alpha = 0 ↔ ColorKey.InRanges ranges (m.base.samplesAt data x y)) ∧
            (pixel.alpha = 255 ↔ ¬ ColorKey.InRanges ranges (m.base.samplesAt data x y)) := by
  intro hall
  let page := Resources.ofDict .empty .empty
  let map : DecodeMap := .ofInterval (0, ColorSpace.maxSample 1) 1
  let base : BaseImage := ⟨2, 1, 1, .indexed .gray 1 [0, 0], [map], false, false, true, twoBlacks⟩
  let key := ColorKey.ofItems? (ColorKey.rangeItems [(0, 0)]) base ({} : ImageConfig).blackRatio
  have hm : ofStream? twoBlacks none page {} = some ⟨base, key.map .colorKey, none⟩ := rfl
  have hcomputed : (ofStream? twoBlacks none page {}).map
      (fun m => (m.decode? .white page.store {}).bind (·.pixel? 1 0)) = some (some ⟨.black, 0⟩) := by
    decide +kernel
  obtain ⟨raster, hraster, hpixels⟩ := hall twoBlacks none page {} _ _ [(0, 0)] .white hm rfl rfl rfl rfl (by decide)
    (.inr (.inr (.inr ⟨_, _, _, rfl⟩))) rfl rfl rfl (by decide)
  obtain ⟨pixel, hpixel, hhidden, -⟩ := hpixels 1 0 (by decide) (by decide)
  rw [hm, Option.map_some, hraster, Option.bind_some, hpixel] at hcomputed
  obtain rfl := Option.some.inj (Option.some.inj hcomputed)
  have hone : base.samplesAt twoBlacks.data 1 0 = [1] := by decide
  rcases hone ▸ hhidden.mp rfl with _ | ⟨⟨-, hle⟩, -⟩
  exact absurd hle (by decide)

end MaskedImage

end Folio
