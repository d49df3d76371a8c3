import Folio.Image.Fax
import Folio.Proofs.Fax.Invariant
import Folio.Proofs.Fax.RoundTrip
import Folio.Proofs.Image.Layout

/-!
# The pixels of images in fax coding

The fax image keeps the length that its own rows have when it becomes the data of an image, whose rows may take
another number of bytes. Main statement: `FaxImage.keepsPixels_iff`, an image shows the pixels of the fax image,
whatever these are, only where the two lengths are the same or where there are no second rows.
-/

namespace Folio.FaxImage

variable {p : Fax.Params} {i : BaseImage} {image : Fax.Image} {x y : Nat}

/-! ## Pictures as fax data -/

theorem columns_of_decodeRows? {data : Bytes} (h : decodeRows? data p = some image) : image.columns = p.columns := by
  unfold decodeRows? at h
  split at h
  · rename_i found hfound
    obtain rfl := Option.some.inj h
    exact Fax.columns_of_decode hfound
  · cases hsecond : Fax.decode data { p with scheme := .twoDimensional } with
    | ok found =>
      rw [hsecond] at h
      obtain rfl := Option.some.inj h
      have hcolumns := Fax.columns_of_decode hsecond
      exact hcolumns
    | error e =>
      rw [hsecond] at h
      cases h

/-- The rows of a picture, where `f x y` says which pixels are black. -/
def picture (columns rows : Nat) (f : Nat → Nat → Bool) : List (List Bool) :=
  (List.range rows).map fun y => (List.range columns).map fun x => f x y

theorem getD_picture {columns rows : Nat} (f : Nat → Nat → Bool) (hx : x < columns) (hy : y < rows) :
    ((picture columns rows f).getD y []).getD x false = f x y := by
  simp [picture, hx, hy]

/-- Every picture of the stated size is that of some data. -/
theorem exists_decodeRows?_isBlack (hcolumns : 0 < p.columns) (hmax : p.columns ≤ Fax.maxColumns)
    (hrows : 0 < p.rows) (f : Nat → Nat → Bool) :
    ∃ data image, decodeRows? data p = some image ∧
      ∀ x y, x < p.columns → y < p.rows → image.isBlack x y = f x y := by
  have hcount : (picture p.columns p.rows f).length = p.rows := by
    rw [picture, List.length_map, List.length_range]
  have hsome : picture p.columns p.rows f ≠ [] := List.ne_nil_of_length_pos (hcount.symm ▸ hrows)
  have hlen : ∀ row ∈ picture p.columns p.rows f, row.length = p.columns := by
    intro row hrow
    obtain ⟨y, -, rfl⟩ := List.mem_map.mp hrow
    rw [List.length_map, List.length_range]
  obtain ⟨data, image, hdecode, hshows⟩ := Fax.exists_decode_shows hcolumns hmax hsome hlen hcount.symm
  refine ⟨data, image, ?_, fun x y hx hy => ?_⟩
  · rw [decodeRows?, hdecode]
  · have hx' : x < image.columns := (Fax.columns_of_decode hdecode).symm ▸ hx
    have hy' : y < image.rows := (hshows.rows_eq.trans hcount).symm ▸ hy
    rw [hshows.isBlack_eq x y hx' hy', getD_picture f hx hy]

/-! ## From the fax image to the samples -/

variable {black : Bool}

/-- The samples that the fax image gives, where `black` is the bit of black pixels. -/
def samplesOf (p : Fax.Params) (black : Bool) (image : Fax.Image) : Bytes :=
  let length := Sample.rowLength 1 p.columns * p.rows
  if black then fitTo length 0x00 image.data else fitTo length 0xFF (image.data.map (~~~ ·))

theorem decode?_eq (data : Bytes) (filterParams : Option Dict) (i : BaseImage) (store : Store) :
    decode? data filterParams i store =
      let d := filterParams.getD .empty
      (decodeRows? data (params store d i)).map (samplesOf (params store d i) (blackIsSet store d i)) := by
  unfold decode? samplesOf Sample.rowLength
  dsimp only [Option.bind_eq_bind]
  rw [Nat.mul_one]
  generalize decodeRows? data (params store (filterParams.getD .empty) i) = decoded
  cases decoded with
  | none => rfl
  | some image =>
    dsimp only [Option.bind_some, Option.map_some]
    split <;> rfl

theorem length_samplesOf (p : Fax.Params) (black : Bool) (image : Fax.Image) :
    (samplesOf p black image).length = Sample.rowLength 1 p.columns * p.rows := by
  unfold samplesOf
  dsimp only
  split <;> exact length_fitTo _ _ _

/-- The bits of the samples are those of the fax image, inverted unless black is set. -/
theorem getD_ofBytes_samplesOf {place : Nat} (h : place < Sample.rowLength 1 p.columns * p.rows * 8)
    (black : Bool) (image : Fax.Image) :
    (Bits.ofBytes (samplesOf p black image)).getD place false =
      ((Bits.ofBytes image.data).getD place false == black) := by
  unfold samplesOf
  dsimp only
  cases black with
  | true => rw [if_pos rfl, getD_ofBytes_fitTo_zeros h, beq_true]
  | false => rw [if_neg Bool.false_ne_true, getD_ofBytes_fitTo_ones h, getD_ofBytes_complement, beq_false]

theorem stride_eq (h : image.columns = p.columns) : image.stride = Sample.rowLength 1 p.columns := by
  rw [Fax.Image.stride, Sample.rowLength, h, Nat.mul_one]

/-- The sample of a pixel is the one that the fax image gives if the row begins at the same byte in both. -/
theorem bit_samplesOf (h : image.columns = p.columns)
    (hrow : y * Sample.rowLength 1 i.width = y * Sample.rowLength 1 p.columns) (hx : x < p.columns)
    (hy : y < p.rows) :
    Sample.bit i.width (samplesOf p black image) x y = (image.isBlack x y == black) := by
  rw [Sample.bit, ← Nat.mul_assoc, hrow, Nat.mul_assoc, getD_ofBytes_samplesOf (Sample.place_lt hx hy).2,
    Fax.Image.isBlack_eq_getD, stride_eq h]

/-- The first sample of the second row is that of the pixel whose bit is there, in some row of the fax image. -/
theorem bit_second_row_of_lt (h : image.columns = p.columns)
    (hlt : Sample.rowLength 1 i.width < Sample.rowLength 1 p.columns * p.rows) :
    Sample.bit i.width (samplesOf p black image) 0 1 =
      (image.isBlack (Sample.rowLength 1 i.width % Sample.rowLength 1 p.columns * 8)
        (Sample.rowLength 1 i.width / Sample.rowLength 1 p.columns) == black) := by
  have hplace : Sample.rowLength 1 i.width / Sample.rowLength 1 p.columns * (Sample.rowLength 1 p.columns * 8) +
      Sample.rowLength 1 i.width % Sample.rowLength 1 p.columns * 8 =
        1 * (Sample.rowLength 1 i.width * 8) + 0 := by
    rw [← Nat.mul_assoc, ← Nat.add_mul, Nat.div_add_mod']
    omega
  rw [Sample.bit, getD_ofBytes_samplesOf (by omega), Fax.Image.isBlack_eq_getD, stride_eq h, hplace]

/-- After the end of the fax image no sample is set. -/
theorem bit_second_row_of_le (h : Sample.rowLength 1 p.columns * p.rows ≤ Sample.rowLength 1 i.width) :
    Sample.bit i.width (samplesOf p black image) 0 1 = false := by
  refine List.getD_eq_default _ _ ?_
  rw [Bits.length_ofBytes, length_samplesOf]
  omega

/-- A byte of the data that is not the first of the second row begins with another pixel than that row. -/
theorem pixel_of_byte {columns rows byte : Nat} (hlt : byte < Sample.rowLength 1 columns * rows)
    (hne : byte ≠ Sample.rowLength 1 columns) :
    byte % Sample.rowLength 1 columns * 8 < columns ∧ byte / Sample.rowLength 1 columns < rows ∧
      ¬ (byte % Sample.rowLength 1 columns * 8 = 0 ∧ byte / Sample.rowLength 1 columns = 1) := by
  have hstride : 0 < Sample.rowLength 1 columns := Nat.pos_of_mul_pos_right (Nat.zero_lt_of_lt hlt)
  refine ⟨?_, Nat.div_lt_of_lt_mul hlt, fun ⟨hmod, hdiv⟩ => hne ?_⟩
  · have hmod := Nat.mod_lt byte hstride
    have hlength : Sample.rowLength 1 columns = (columns * 1 + 7) / 8 := rfl
    omega
  · have hparts := Nat.div_add_mod' byte (Sample.rowLength 1 columns)
    rw [hdiv] at hparts
    omega

/-- A single pixel that differs from all others is not at its place if second rows begin at different bytes. -/
theorem exists_decodeRows?_lost (hcolumns : 0 < p.columns) (hmax : p.columns ≤ 2 ^ 20) (hrows : 1 < p.rows)
    (hne : Sample.rowLength 1 i.width ≠ Sample.rowLength 1 p.columns) (black : Bool) :
    ∃ data image, decodeRows? data p = some image ∧
      Sample.bit i.width (samplesOf p black image) 0 1 ≠ (image.isBlack 0 1 == black) := by
  by_cases hlt : Sample.rowLength 1 i.width < Sample.rowLength 1 p.columns * p.rows
  · -- The sample is that of another pixel, so the single pixel is the black one.
    obtain ⟨data, image, hdecode, hpixels⟩ := exists_decodeRows?_isBlack hcolumns hmax
      (Nat.zero_lt_of_lt hrows) fun x y => decide (x = 0 ∧ y = 1)
    obtain ⟨hx, hy, hother⟩ := pixel_of_byte hlt hne
    refine ⟨data, image, hdecode, ?_⟩
    rw [bit_second_row_of_lt (columns_of_decodeRows? hdecode) hlt, hpixels _ _ hx hy, hpixels 0 1 hcolumns hrows,
      decide_eq_false hother]
    cases black <;> decide
  · -- There is no sample, so the single pixel is of the color that is set.
    obtain ⟨data, image, hdecode, hpixels⟩ := exists_decodeRows?_isBlack hcolumns hmax
      (Nat.zero_lt_of_lt hrows) fun x y => black && decide (x = 0 ∧ y = 1)
    refine ⟨data, image, hdecode, ?_⟩
    rw [bit_second_row_of_le (Nat.le_of_not_lt hlt), hpixels 0 1 hcolumns hrows]
    cases black <;> decide

/-! ## Images -/

theorem size_pos {store : Store} {d : Dict} {key : Name} {default : Nat} (h : 0 < default) :
    0 < size store d key default := by
  unfold size
  cases hstated : ((store.entry? Object.uint32? d key).map UInt32.toNat).filter (0 < ·) with
  | none => exact h
  | some count =>
    have hpos := (Option.filter_eq_some_iff.mp hstated).2
    exact of_decide_eq_true hpos

/-- Whether an image shows the pixels of its fax image where they lie in both, if its data can be decoded. -/
def KeepsPixels (store : Store) (filterParams : Option Dict) (i : BaseImage) (data : Bytes) : Prop :=
  let d := filterParams.getD .empty
  let p := params store d i
  ∀ samples, decode? data filterParams i store = some samples →
    ∃ image, decodeRows? data p = some image ∧
      ∀ x y, x < min i.width p.columns → y < min i.height p.rows →
        (Sample.unpack 1 i.width i.height samples)[y * i.width + x]? =
          some (if image.isBlack x y = blackIsSet store d i then 1 else 0)

theorem some_toNat_eq_iff {a b sample : Bool} :
    some sample.toNat = some (if a = b then 1 else 0) ↔ sample = (a == b) := by
  revert a b sample
  decide

/-- An image whose data can be decoded shows the pixels if the samples are the right ones. -/
theorem keepsPixels_iff_bit {store : Store} {filterParams : Option Dict} {data : Bytes} :
    let d := filterParams.getD .empty
    let p := params store d i
    KeepsPixels store filterParams i data ↔
      ∀ image, decodeRows? data p = some image →
        ∀ x y, x < min i.width p.columns → y < min i.height p.rows →
          Sample.bit i.width (samplesOf p (blackIsSet store d i) image) x y =
            (image.isBlack x y == blackIsSet store d i) := by
  intro d p
  have hsample {samples : Bytes} {b : Bool} {x y : Nat} (hx : x < min i.width p.columns)
      (hy : y < min i.height p.rows) :
      (Sample.unpack 1 i.width i.height samples)[y * i.width + x]? =
          some (if b = blackIsSet store d i then 1 else 0) ↔
        Sample.bit i.width samples x y = (b == blackIsSet store d i) := by
    rw [Sample.getElem?_unpack (by decide) (Nat.lt_min.mp hx).1 (Nat.lt_min.mp hy).1, Sample.stored_one]
    exact some_toNat_eq_iff
  constructor
  · intro hkeeps image himage x y hx hy
    have hsamples : decode? data filterParams i store = some (samplesOf p (blackIsSet store d i) image) := by
      rw [decode?_eq]
      exact congrArg (Option.map _) himage
    obtain ⟨found, hfound, hall⟩ := hkeeps _ hsamples
    obtain rfl : image = found := Option.some.inj (himage.symm.trans hfound)
    exact (hsample hx hy).mp (hall x y hx hy)
  · intro hall samples hsamples
    rw [decode?_eq] at hsamples
    obtain ⟨image, himage, rfl⟩ := Option.map_eq_some_iff.mp hsamples
    exact ⟨image, himage, fun x y hx hy => (hsample hx hy).mpr (hall image himage x y hx hy)⟩

/-- The pixels of an image are those of its fax image, whatever the data are, exactly if the rows of both have the
same length in bytes or one of them has a single row. -/
theorem keepsPixels_iff {store : Store} {filterParams : Option Dict} (hwidth : 0 < i.width)
    (hheight : 0 < i.height) (hmax : (params store (filterParams.getD .empty) i).columns ≤ 2 ^ 20) :
    let p := params store (filterParams.getD .empty) i
    (∀ data, KeepsPixels store filterParams i data) ↔
      Sample.rowLength 1 p.columns = Sample.rowLength 1 i.width ∨ p.rows = 1 ∨ i.height = 1 := by
  intro p
  have hcolumns : 0 < p.columns := size_pos hwidth
  have hrows : 0 < p.rows := size_pos hheight
  constructor
  · intro hall
    by_contra! hdifferent
    obtain ⟨hne, hsecond, hbelow⟩ := hdifferent
    have htwo : 1 < p.rows := by omega
    have hunder : 1 < i.height := by omega
    obtain ⟨data, image, himage, hlost⟩ := exists_decodeRows?_lost hcolumns hmax htwo hne.symm
      (blackIsSet store (filterParams.getD .empty) i)
    refine hlost (keepsPixels_iff_bit.mp (hall data) image himage 0 1 ?_ ?_)
    · exact Nat.lt_min.mpr ⟨hwidth, hcolumns⟩
    · exact Nat.lt_min.mpr ⟨hunder, htwo⟩
  · intro hsame data
    refine keepsPixels_iff_bit.mpr fun image himage x y hx hy => ?_
    have hcolumn : x < p.columns := (Nat.lt_min.mp hx).2
    have hline : y < i.height ∧ y < p.rows := Nat.lt_min.mp hy
    refine bit_samplesOf (columns_of_decodeRows? himage) ?_ hcolumn hline.2
    rcases hsame with hsame | hsingle
    · rw [hsame]
    · obtain rfl : y = 0 := by omega
      rw [Nat.zero_mul, Nat.zero_mul]

/-- The parameters of fax data of sixteen by two pixels. -/
def barParams : Dict := .ofList [("Columns", .ofInt 16), ("K", .ofInt (-1)), ("Rows", .ofInt 2)]

/-- A white row and below it a row that begins with eight black pixels. -/
def barData : Bytes := [0x93, 0x51, 0x60]

/-- An image of two rows that shows these pixels. -/
def barImage (width : Nat) : BaseImage :=
  ⟨width, 2, 1, .gray, [], false, false, false, ⟨.ofList [("DecodeParms", .dict barParams)], barData, none⟩⟩

theorem columns_barImage (width : Nat) :
    (params .empty ((some barParams).getD .empty) (barImage width)).columns = 16 := rfl

/-- Rows of nine samples take two bytes as rows of sixteen do. -/
theorem keepsPixels_iff_nine :
    (params .empty ((some barParams).getD .empty) (barImage 9)).columns ≤ 2 ^ 20 ∧
      ∀ data, KeepsPixels .empty (some barParams) (barImage 9) data := by
  have hmax : (params .empty ((some barParams).getD .empty) (barImage 9)).columns ≤ 2 ^ 20 := by
    rw [columns_barImage]
    decide
  refine ⟨hmax, (keepsPixels_iff (Nat.succ_pos 8) Nat.two_pos hmax).mpr (.inl ?_)⟩
  rw [columns_barImage]
  rfl

/-- Rows of eight samples take one byte, and the second row of the image is the end of the first row of the fax
image. -/
theorem not_forall_keepsPixels :
    ¬ ∀ (store : Store) (filterParams : Option Dict) (i : BaseImage) (data : Bytes),
      (params store (filterParams.getD .empty) i).columns ≤ 2 ^ 20 →
        KeepsPixels store filterParams i data := by
  intro hall
  have hmax : (params .empty ((some barParams).getD .empty) (barImage 8)).columns ≤ 2 ^ 20 := by
    rw [columns_barImage]
    decide
  have hsamples : decode? barData (some barParams) (barImage 8) .empty = some [0xFF, 0xFF, 0x00, 0xFF] := by
    decide +kernel
  have hblack : (decodeRows? barData (params .empty barParams (barImage 8))).map (·.isBlack 0 1) = some true := by
    decide +kernel
  have hset : blackIsSet .empty barParams (barImage 8) = false := by decide +kernel
  obtain ⟨image, himage, hpixels⟩ := hall .empty (some barParams) (barImage 8) barData hmax _ hsamples
  have hsecond := hpixels 0 1 (by decide +kernel) (by decide +kernel)
  rw [Option.getD_some] at himage hsecond
  rw [himage] at hblack
  have hbar : image.isBlack 0 1 = true := Option.some.inj hblack
  rw [hbar, hset] at hsecond
  exact absurd hsecond (by decide +kernel)

end Folio.FaxImage
