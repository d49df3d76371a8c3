import Folio.Proofs.Image.Layout

/-!
# The pixels of images without filters

Main statement: `MaskedImage.decode?_unfiltered`, the pixels of an image without filters are what the samples in its
data stand for (`BaseImage.sample`), for gray images, for images of three levels and for stencils. Levels that
take a byte each become colors at once, others through a table, and a stencil compares them with one half; all
find a sample at the same place.
-/

namespace Folio

/-! ## Samples that stand for levels -/

/-- Samples that do not take more than a byte divide bytes, and their levels divide the levels of a byte. -/
theorem dvd_of_mem_depths {bits : Nat} (h : bits ∈ [1, 2, 4, 8]) : bits ∣ 8 ∧ 2 ^ bits - 1 ∣ 255 := by
  revert bits
  decide

namespace DecodeMap

theorem isIdentity_rescale {bits : Nat} (h : bits ∈ [1, 2, 4, 8]) :
    ((ofInterval (0, 1) bits).rescale bits bits).isIdentity bits = true := by
  revert bits
  decide +kernel

theorem apply_toNat_lt_half (b : Bool) :
    (((ofInterval (0, 1) 1).rescale 1 1).apply b.toNat < 0.5 ↔ b = false) ∧
      (((ofInterval (1, 0) 1).rescale 1 1).apply b.toNat < 0.5 ↔ b = true) := by
  revert b
  decide +kernel

end DecodeMap

namespace BaseImage

variable {i : BaseImage} {data : Bytes} {x y : Nat}

/-- A gray is spread to the level nearest to it. -/
theorem exists_spreadGray {bits sample : Nat} (hbits : bits ∈ [1, 2, 4, 8]) (h : sample < 2 ^ bits) :
    ∃ level : UInt8, spreadGray bits sample = .gray level ∧
      (level.toNat : ℤ) = round ((sample * 255 : ℚ) / (2 ^ bits - 1)) := by
  -- The levels of all samples are multiples of the level of the sample 1, so that nothing is rounded.
  obtain ⟨-, unit, hunit⟩ := dvd_of_mem_depths hbits
  have hpos : 0 < 2 ^ bits - 1 := Nat.pos_of_dvd_of_pos ⟨unit, hunit⟩ (by decide)
  have hlevel : (sample * 255 + (2 ^ bits - 1) / 2) / (2 ^ bits - 1) = sample * unit := by
    have hhalf : (2 ^ bits - 1) / 2 < 2 ^ bits - 1 := Nat.div_lt_self hpos Nat.one_lt_two
    rw [hunit, Nat.mul_left_comm, Nat.mul_add_div hpos, Nat.div_eq_of_lt hhalf, Nat.add_zero]
  have hle : sample * unit ≤ 255 := by
    rw [hunit]
    exact Nat.mul_le_mul_right unit (Nat.le_sub_one_of_lt h)
  refine ⟨(sample * unit).toUInt8, ?_, ?_⟩
  · rw [spreadGray, Nat.one_shiftLeft]
    exact congrArg (fun level => Rgb.gray level.toUInt8) hlevel
  · have hquotient : (sample * 255 : ℚ) / (2 ^ bits - 1) = ((sample * unit : ℕ) : ℚ) := by
      have hcast : ((2 ^ bits - 1 : ℕ) : ℚ) = 2 ^ bits - 1 := by
        rw [Nat.cast_sub Nat.one_le_two_pow, Nat.cast_pow, Nat.cast_ofNat, Nat.cast_one]
      have hne : ((2 ^ bits - 1 : ℕ) : ℚ) ≠ 0 := Nat.cast_ne_zero.mpr hpos.ne'
      rw [← hcast, div_eq_iff hne, ← Nat.cast_mul, Nat.mul_assoc, Nat.mul_comm unit, ← hunit, Nat.cast_mul]
      rfl
    rw [hquotient, round_natCast, Nat.toUInt8, UInt8.toNat_ofNat', Nat.mod_eq_of_lt (Nat.lt_succ_of_le hle)]

/-- The sample of a component of a pixel in some data. -/
def sample (i : BaseImage) (data : Bytes) (x y component : Nat) : Nat :=
  Sample.stored i.bits (i.width * i.space.components) data (x * i.space.components + component) y

theorem sample_of_gray (h : i.space = .gray) (data : Bytes) (x y : Nat) :
    i.sample data x y 0 = Sample.stored i.bits i.width data x y := by
  rw [sample, h]
  show Sample.stored i.bits (i.width * 1) data (x * 1 + 0) y = _
  rw [Nat.mul_one, Nat.mul_one, Nat.add_zero]

/-- A gray image whose samples stand for levels has those levels. -/
theorem getElem?_packedColors_gray {bits : Nat} {map : DecodeMap} (hspace : i.space = .gray)
    (hmaps : i.decodeFor bits = [map]) (hbits : bits ∈ [1, 2, 4, 8]) (hmap : map.isIdentity bits = true)
    (hx : x < i.width) (hy : y < i.height) (ratio : Float32) (data : Bytes) :
    (i.packedColors bits ratio data)[y * i.width + x]? =
      some (spreadGray bits (Sample.stored bits i.width data x y)) := by
  obtain ⟨hdvd, -⟩ := dvd_of_mem_depths hbits
  have hlevels : i.levelColors? [map] bits ratio data = none := by
    unfold levelColors?
    rw [hspace]
    exact ite_self none
  have hcount : i.width * i.space.components = i.width := by
    rw [hspace]
    exact Nat.mul_one i.width
  have hcolor (sample : Nat) : sampleColor .gray map bits ratio sample = spreadGray bits sample := by
    unfold sampleColor
    rw [hmap]
  unfold packedColors
  dsimp only
  rw [hmaps, hlevels]
  dsimp only
  rw [if_pos (Nat.le_of_dvd (Nat.succ_pos 7) hdvd), List.getElem?_map, hcount,
    Sample.getElem?_unpack hdvd hx hy, hspace, Option.map_some, hcolor]

theorem take_three_drop {levels : Bytes} {place : Nat} (h : place + 2 < levels.length) :
    (levels.drop place).take 3 = [levels.getD place 0, levels.getD (place + 1) 0, levels.getD (place + 2) 0] := by
  rw [List.drop_eq_getElem_cons (by omega), List.drop_eq_getElem_cons (by omega), List.drop_eq_getElem_cons h,
    List.getD_eq_getElem _ _ (by omega), List.getD_eq_getElem _ _ (by omega), List.getD_eq_getElem _ _ h]
  rfl

/-- An image of three levels for each pixel has those levels. -/
theorem getElem?_packedColors_rgb (hspace : i.space = .rgb)
    (hmaps : (i.decodeFor 8).all (·.isIdentity 8) = true) (hx : x < i.width) (hy : y < i.height)
    (ratio : Float32) (data : Bytes) :
    ∃ red green blue : UInt8,
      (i.packedColors 8 ratio data)[y * i.width + x]? = some ⟨red, green, blue⟩ ∧
        red.toNat = Sample.stored 8 (i.width * 3) data (x * 3) y ∧
        green.toNat = Sample.stored 8 (i.width * 3) data (x * 3 + 1) y ∧
        blue.toNat = Sample.stored 8 (i.width * 3) data (x * 3 + 2) y := by
  have hplace : y * i.width + x < i.size := Bilevel.Bitmap.index_lt hx hy
  have hlevel (component : Nat) (hcomponent : component < 3) :
      ((fitTo (3 * i.size) 0 data).getD ((y * i.width + x) * 3 + component) 0).toNat =
        Sample.stored 8 (i.width * 3) data (x * 3 + component) y := by
    have hindex : (y * i.width + x) * 3 + component = y * (i.width * 3) + (x * 3 + component) := by ring
    rw [getD_fitTo (by omega), Sample.stored_eight, hindex]
  refine ⟨_, _, _, ?_, hlevel 0 (by decide), hlevel 1 (by decide), hlevel 2 (by decide)⟩
  have hlength : (fitTo (3 * i.size) 0 data).length = 3 * i.size := length_fitTo _ _ _
  unfold packedColors
  simp only [levelColors?, hmaps, hspace, and_self, if_true]
  rw [List.getElem?_map, Bytes.getElem?_exactBlocks (Nat.succ_pos 2) hlength hplace, Option.map_some,
    take_three_drop (by omega)]
  rfl

/-! ## Images without filters -/

variable {s : Stream} {given : Option ColorSpace} {forceStencil : Bool} {r : Resources} {config : ImageConfig}
  {store : Store}

/-- The intervals that the samples of the components are taken to. -/
def intervals (i : BaseImage) (store : Store) : List (Float32 × Float32) :=
  ((statedDecode? store i.stream.dict i.space.components).getD (i.space.defaultDecode i.bits)).take
    i.space.components

/-- Gray and the three levels are taken to the interval from 0 to 1 if nothing is stated. -/
theorem intervals_of_not_stated (hspace : i.space = .gray ∨ i.space = .rgb)
    (h : statedDecode? store i.stream.dict i.space.components = none) :
    i.intervals store = List.replicate i.space.components (0, 1) := by
  rw [intervals, h]
  rcases hspace with hspace | hspace <;> rw [hspace] <;> rfl

/-- How an image is given by its stream. -/
theorem eq_of_ofStream? (h : ofStream? s given forceStencil r config = some i) :
    i.stream = s ∧ (i.isStencil = true → i.space = .gray) ∧
      i.decode = (i.intervals r.store).map fun interval => .ofInterval interval i.bits := by
  obtain ⟨filters, -, h⟩ := Option.bind_eq_some_iff.mp h
  obtain ⟨-, -, h⟩ := Option.bind_eq_some_iff.mp h
  obtain ⟨size, -, h⟩ := Option.bind_eq_some_iff.mp h
  obtain rfl := Option.some.inj h
  exact ⟨rfl, fun hstencil => if_pos hstencil, rfl⟩

theorem samples?_of_no_filters (hfilters : i.stream.filters store = .ok [])
    (hdata : i.stream.decrypted store = .ok data) : i.samples? store config = some (.packed i.bits data) := by
  have hdecode : i.stream.decode store = .ok ⟨data, none⟩ := by
    rw [Stream.decode, hdata, hfilters]
    rfl
  rw [samples?, hdecode]
  rfl

/-- The decode maps of an image, for samples of its own bits. -/
theorem decodeFor_bits (h : i.decode = (i.intervals store).map fun interval => .ofInterval interval i.bits) :
    i.decodeFor i.bits =
      (i.intervals store).map fun interval => (DecodeMap.ofInterval interval i.bits).rescale i.bits i.bits := by
  rw [decodeFor, h, List.map_map]
  rfl

end BaseImage

namespace MaskedImage

variable {m : MaskedImage} {s : Stream} {given : Option ColorSpace} {r : Resources} {config : ImageConfig}
  {store : Store} {data : Bytes} {x y : Nat}

/-- An image without masks is opaque. -/
theorem getElem?_pixels {bits : Nat} {color : Rgb} (hsoft : m.softMask = none) (hmask : m.mask = none)
    (hx : x < m.base.width) (hy : y < m.base.height)
    (hcolor : (m.base.packedColors bits config.blackRatio data)[y * m.base.width + x]? = some color) :
    (m.pixels (.packed bits data) store config)[y * m.base.width + x]? = some ⟨color, 255⟩ := by
  have hplace : y * m.base.width + x < m.base.size := Bilevel.Bitmap.index_lt hx hy
  have halphas (colors : List Rgb) : m.alphas? colors none store config = none := by
    unfold alphas?
    rw [hsoft, hmask]
    cases m.base.hasCodedAlpha <;> rfl
  have halpha : (fitTo m.base.size (255 : UInt8) [])[y * m.base.width + x]? = some 255 := by
    rw [fitTo, List.take_nil, List.nil_append, List.length_nil, Nat.sub_zero, List.getElem?_replicate_of_lt hplace]
  unfold pixels
  dsimp only
  rw [halphas, Option.getD_none, List.getElem?_zipWith, halpha]
  unfold BaseImage.colorsOf
  dsimp only
  rw [hcolor]

/-- The pixels of a stencil are painted where the value of the sample is below one half. -/
theorem getElem?_stencilPixels {i : BaseImage} {map : DecodeMap} (hmaps : i.decodeFor 1 = [map])
    (hx : x < i.width) (hy : y < i.height) (fill : Rgb) :
    (stencilPixels i (.packed 1 data) fill)[y * i.width + x]? =
      some (if map.apply (Sample.bit i.width data x y).toNat < 0.5 then .opaqueOf fill else .transparent) := by
  unfold stencilPixels BaseImage.coverage
  dsimp only
  rw [hmaps, List.headD_cons, List.getElem?_map, List.getElem?_map, Sample.getElem?_unpack (by decide) hx hy,
    Sample.stored_one, Option.map_some, Option.map_some]
  split <;> rfl

theorem base_of_ofStream? (hm : ofStream? s given r config = some m) :
    BaseImage.ofStream? s given false r config = some m.base := by
  obtain ⟨base, hbase, hm⟩ := Option.bind_eq_some_iff.mp hm
  obtain rfl := Option.some.inj hm
  exact hbase

/-- An image without filters is decoded, and its samples are in the data. -/
theorem decode?_of_no_filters (hm : ofStream? s given r config = some m)
    (hfilters : s.filters r.store = .ok []) (hdata : s.decrypted r.store = .ok data) (fill : Rgb) :
    m.decode? fill r.store config =
      if m.base.isStencil then
        some ⟨m.base.width, m.base.height, stencilPixels m.base (.packed m.base.bits data) fill, some fill⟩
      else some ⟨m.base.width, m.base.height, m.pixels (.packed m.base.bits data) r.store config, none⟩ := by
  obtain ⟨hstream, -, -⟩ := BaseImage.eq_of_ofStream? (base_of_ofStream? hm)
  rw [← hstream] at hfilters hdata
  rw [decode?, BaseImage.samples?_of_no_filters hfilters hdata]
  rfl

/-- Whether an image is neither a stencil nor masked. -/
structure IsPlain (m : MaskedImage) : Prop where
  isStencil_eq : m.base.isStencil = false
  softMask_eq : m.softMask = none
  mask_eq : m.mask = none

/-- Whether a pixel is what its samples stand for: the level nearest to the value of the sample if they are gray,
the levels themselves if there are three, and the color of a stencil where the sample stands for 0. -/
structure Shows (m : MaskedImage) (store : Store) (fill : Rgb) (sample : Nat → Nat) (pixel : Option Pixel) :
    Prop where
  gray : m.IsPlain → m.base.space = .gray → m.base.bits ∈ [1, 2, 4, 8] →
    m.base.intervals store = [(0, 1)] →
      ∃ level : UInt8, pixel = some ⟨.gray level, 255⟩ ∧
        (level.toNat : ℤ) = round ((sample 0 * 255 : ℚ) / (2 ^ m.base.bits - 1))
  rgb : m.IsPlain → m.base.space = .rgb → m.base.bits = 8 →
    m.base.intervals store = [(0, 1), (0, 1), (0, 1)] →
      ∃ red green blue : UInt8, pixel = some ⟨⟨red, green, blue⟩, 255⟩ ∧
        red.toNat = sample 0 ∧ green.toNat = sample 1 ∧ blue.toNat = sample 2
  stencil : m.base.isStencil = true → m.base.bits = 1 → m.base.intervals store = [(0, 1)] →
    pixel = some (if sample 0 = 0 then ⟨fill, 255⟩ else ⟨⟨0, 0, 0⟩, 0⟩)
  inverted : m.base.isStencil = true → m.base.bits = 1 → m.base.intervals store = [(1, 0)] →
    pixel = some (if sample 0 = 1 then ⟨fill, 255⟩ else ⟨⟨0, 0, 0⟩, 0⟩)

/-- The pixels of an image that is no stencil. -/
theorem shows_pixels (hstencil : m.base.isStencil = false)
    (hdecode : m.base.decode = (m.base.intervals store).map fun interval => .ofInterval interval m.base.bits)
    (hx : x < m.base.width) (hy : y < m.base.height) (fill : Rgb) (data : Bytes) :
    m.Shows store fill (m.base.sample data x y)
      (m.pixels (.packed m.base.bits data) store config)[y * m.base.width + x]? := by
  have hmaps := BaseImage.decodeFor_bits hdecode
  constructor
  · intro hplain hspace hbits hintervals
    rw [hintervals, List.map_singleton] at hmaps
    have hcolor := BaseImage.getElem?_packedColors_gray hspace hmaps hbits (DecodeMap.isIdentity_rescale hbits) hx hy
      config.blackRatio data
    obtain ⟨level, hlevel, hround⟩ := BaseImage.exists_spreadGray hbits
      (Sample.stored_lt m.base.bits m.base.width data x y)
    rw [hlevel] at hcolor
    refine ⟨level, getElem?_pixels hplain.softMask_eq hplain.mask_eq hx hy hcolor, ?_⟩
    rw [BaseImage.sample_of_gray hspace]
    exact hround
  · intro hplain hspace hbits hintervals
    rw [hintervals, hbits] at hmaps
    have hidentity : (m.base.decodeFor 8).all (·.isIdentity 8) = true := by
      have hmap : ((DecodeMap.ofInterval (0, 1) 8).rescale 8 8).isIdentity 8 = true :=
        DecodeMap.isIdentity_rescale (by decide)
      rw [hmaps]
      simp only [List.map_cons, List.map_nil, List.all_cons, List.all_nil, hmap, Bool.and_self]
    obtain ⟨red, green, blue, hcolor, hred, hgreen, hblue⟩ :=
      BaseImage.getElem?_packedColors_rgb hspace hidentity hx hy config.blackRatio data
    have hsample (component : Nat) : m.base.sample data x y component =
        Sample.stored 8 (m.base.width * 3) data (x * 3 + component) y := by
      rw [BaseImage.sample, hspace, hbits]
      rfl
    rw [hbits, hsample 0, hsample 1, hsample 2]
    exact ⟨red, green, blue, getElem?_pixels hplain.softMask_eq hplain.mask_eq hx hy hcolor, hred, hgreen, hblue⟩
  · intro htrue
    exact absurd htrue (Bool.eq_false_iff.mp hstencil)
  · intro htrue
    exact absurd htrue (Bool.eq_false_iff.mp hstencil)

/-- The pixels of a stencil. -/
theorem shows_stencilPixels (hstencil : m.base.isStencil = true) (hspace : m.base.space = .gray)
    (hdecode : m.base.decode = (m.base.intervals store).map fun interval => .ofInterval interval m.base.bits)
    (hx : x < m.base.width) (hy : y < m.base.height) (fill : Rgb) (data : Bytes) :
    m.Shows store fill (m.base.sample data x y)
      (stencilPixels m.base (.packed m.base.bits data) fill)[y * m.base.width + x]? := by
  have hmaps := BaseImage.decodeFor_bits hdecode
  obtain ⟨hidentity, hinverted⟩ := DecodeMap.apply_toNat_lt_half (Sample.bit m.base.width data x y)
  constructor
  · intro hplain
    exact absurd hstencil (Bool.eq_false_iff.mp hplain.isStencil_eq)
  · intro hplain
    exact absurd hstencil (Bool.eq_false_iff.mp hplain.isStencil_eq)
  · intro _ hbits hintervals
    rw [hintervals, hbits, List.map_singleton] at hmaps
    rw [hbits, getElem?_stencilPixels hmaps hx hy, BaseImage.sample_of_gray hspace, hbits, Sample.stored_one]
    simp only [hidentity, Bool.toNat_eq_zero]
    rfl
  · intro _ hbits hintervals
    rw [hintervals, hbits, List.map_singleton] at hmaps
    rw [hbits, getElem?_stencilPixels hmaps hx hy, BaseImage.sample_of_gray hspace, hbits, Sample.stored_one]
    simp only [hinverted, Bool.toNat_eq_one]
    rfl

/-- The pixels of an image without filters, whatever its size and its data are, are what the samples stand for that
the data hold. -/
theorem decode?_unfiltered (hm : ofStream? s given r config = some m) (hfilters : s.filters r.store = .ok [])
    (hdata : s.decrypted r.store = .ok data) (fill : Rgb) :
    ∃ raster, m.decode? fill r.store config = some raster ∧
      raster.width = m.base.width ∧ raster.height = m.base.height ∧
      ∀ x y, x < m.base.width → y < m.base.height →
        m.Shows r.store fill (m.base.sample data x y) (raster.pixel? x y) := by
  obtain ⟨-, hgray, hdecode⟩ := BaseImage.eq_of_ofStream? (base_of_ofStream? hm)
  have hshown := decode?_of_no_filters hm hfilters hdata fill
  cases hstencil : m.base.isStencil with
  | false =>
    rw [hstencil, if_neg Bool.false_ne_true] at hshown
    refine ⟨_, hshown, rfl, rfl, fun x y hx hy => ?_⟩
    rw [Raster.pixel?, if_pos hx]
    exact shows_pixels hstencil hdecode hx hy fill data
  | true =>
    rw [hstencil, if_pos rfl] at hshown
    refine ⟨_, hshown, rfl, rfl, fun x y hx hy => ?_⟩
    rw [Raster.pixel?, if_pos hx]
    exact shows_stencilPixels hstencil (hgray hstencil) hdecode hx hy fill data

/-- A gray image of three by two pixels of four bits, whose data end in the first row. -/
def shortRow : Stream where
  dict := .ofList [("BitsPerComponent", .ofInt 4), ("ColorSpace", .name "DeviceGray"), ("Height", .ofInt 2),
    ("Width", .ofInt 3)]
  data := [0x5A]
  reference := none

/-- A stencil of two by one pixels, of which the first is painted. -/
def leftStencil : Stream where
  dict := .ofList [("Height", .ofInt 1), ("ImageMask", .bool true), ("Width", .ofInt 2)]
  data := [0x40]
  reference := none

theorem decode?_unfiltered_shortRow :
    let page := Resources.ofDict .empty .empty
    (∃ m raster, ofStream? shortRow none page {} = some m ∧ m.decode? .white page.store {} = some raster ∧
      raster.pixel? 1 0 = some ⟨.gray 170, 255⟩ ∧ raster.pixel? 2 1 = some ⟨.black, 255⟩) ∧
    ∃ m raster, ofStream? leftStencil none page {} = some m ∧ m.decode? .white page.store {} = some raster ∧
      raster.pixel? 0 0 = some ⟨.white, 255⟩ ∧ raster.pixel? 1 0 = some ⟨.black, 0⟩ := by
  intro page
  constructor
  · let base : BaseImage := ⟨3, 2, 4, .gray, [.ofInterval (0, 1) 4], false, false, true, shortRow⟩
    have hm : ofStream? shortRow none page {} = some ⟨base, none, none⟩ := rfl
    have hintervals : base.intervals page.store = [(0, 1)] := BaseImage.intervals_of_not_stated (.inl rfl) rfl
    obtain ⟨raster, hraster, -, -, hshows⟩ := decode?_unfiltered hm rfl rfl .white
    have hgray {x y : Nat} {level : UInt8} (hx : x < 3) (hy : y < 2)
        (hsample : base.sample shortRow.data x y 0 * 17 = level.toNat) :
        raster.pixel? x y = some ⟨.gray level, 255⟩ := by
      obtain ⟨found, hpixel, hfound⟩ := (hshows x y hx hy).gray ⟨rfl, rfl, rfl⟩ rfl (by decide) hintervals
      have hvalue : (base.sample shortRow.data x y 0 * 255 : ℚ) / (2 ^ 4 - 1) = (level.toNat : ℚ) := by
        rw [← hsample, Nat.cast_mul]
        norm_num
        ring
      rw [hvalue, round_natCast, Nat.cast_inj] at hfound
      rw [hpixel, UInt8.toNat_inj.mp hfound]
    exact ⟨_, raster, hm, hraster, hgray (by decide) (by decide) (by decide),
      hgray (by decide) (by decide) (by decide)⟩
  · let base : BaseImage := ⟨2, 1, 1, .gray, [.ofInterval (0, 1) 1], true, false, false, leftStencil⟩
    have hm : ofStream? leftStencil none page {} = some ⟨base, none, none⟩ := rfl
    have hintervals : base.intervals page.store = [(0, 1)] := BaseImage.intervals_of_not_stated (.inl rfl) rfl
    obtain ⟨raster, hraster, -, -, hshows⟩ := decode?_unfiltered hm rfl rfl .white
    refine ⟨_, raster, hm, hraster, ?_, ?_⟩
    · have hclear : base.sample leftStencil.data 0 0 0 = 0 := by decide
      rw [(hshows 0 0 (by decide) (by decide)).stencil rfl rfl hintervals, if_pos hclear]
    · have hset : base.sample leftStencil.data 1 0 0 ≠ 0 := by decide
      rw [(hshows 1 0 (by decide) (by decide)).stencil rfl rfl hintervals, if_neg hset]
      rfl

end MaskedImage

end Folio
