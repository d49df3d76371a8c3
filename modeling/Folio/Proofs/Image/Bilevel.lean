import Folio.Image.Bilevel
import Folio.Proofs.Image.Layout

/-!
# The pixels of bilevel images

Main statement: `BilevelImage.decode?_keepsPixels`, an image shows the page at its upper left corner, cut off or
surrounded by white, whichever size the two have. A page as wide as the image is not packed anew, and the
bits after its rows may be others; the pixels are the same.
-/

namespace Folio.BilevelImage

variable {page : Bilevel.Bitmap} {i : BaseImage} {x y : Nat}

/-- The rows of a page as they are packed, with black and white exchanged. -/
def wholeRows (page : Bilevel.Bitmap) : Bytes := page.pack.map (~~~ ·)

/-- The rows of a page, pixel by pixel, as rows of an image. -/
def croppedRows (page : Bilevel.Bitmap) (i : BaseImage) : Bytes :=
  (List.range (min i.height page.height)).flatMap (packRow page i.width)

/-- Rows that are cut off or completed with white to those of an image. -/
def completed (i : BaseImage) (rows : Bytes) : Bytes :=
  fitTo (Sample.rowLength 1 i.width * i.height) 0xFF rows

theorem pack_eq (page : Bilevel.Bitmap) (i : BaseImage) :
    pack page i = completed i (if page.width = i.width then wholeRows page else croppedRows page i) := by
  rw [completed, Sample.rowLength, Nat.mul_one]
  rfl

theorem get_of_width_le (h : page.width ≤ x) : page.get x y = false := by
  refine if_neg ?_
  omega

theorem get_of_height_le (h : page.height ≤ y) : page.get x y = false := by
  refine if_neg ?_
  omega

theorem get_eq_true_iff :
    page.get x y = true ↔ x < page.width ∧ y < page.height ∧ page.get x y = true := by
  refine ⟨fun hblack => ⟨?_, ?_, hblack⟩, fun h => h.2.2⟩
  · refine Nat.lt_of_not_le fun hle => ?_
    rw [get_of_width_le hle] at hblack
    exact Bool.false_ne_true hblack
  · refine Nat.lt_of_not_le fun hle => ?_
    rw [get_of_height_le hle] at hblack
    exact Bool.false_ne_true hblack

/-- The rows of a page that is as wide as the image have the stride of the image already. -/
theorem bit_wholeRows (hwidth : page.width = i.width) (hx : x < i.width) (hy : y < i.height) :
    Sample.bit i.width (completed i (wholeRows page)) x y = !page.get x y := by
  obtain ⟨hrow, hplace⟩ := Sample.place_lt hx hy
  have hstride : Sample.rowLength 1 i.width = page.stride := by
    rw [Sample.rowLength, Bilevel.Bitmap.stride, hwidth, Nat.mul_one]
  rw [hstride] at hrow
  have hlen (y : Nat) : (page.rowBits y).length = page.stride * 8 := by
    rw [Bilevel.Bitmap.rowBits, List.length_map, List.length_range]
  rw [Sample.bit, completed, getD_ofBytes_fitTo_ones hplace, wholeRows, getD_ofBytes_complement, hstride,
    Bilevel.Bitmap.pack, getD_ofBytes_flatMap_pack hlen hrow]
  split
  · simp [Bilevel.Bitmap.rowBits, hrow, hwidth, hx]
  · rename_i hy
    rw [get_of_height_le (Nat.le_of_not_lt hy)]

/-- The rows that are packed pixel by pixel have the stride of the image, and the white after them the color of
what is outside the page. -/
theorem bit_croppedRows (hx : x < i.width) (hy : y < i.height) :
    Sample.bit i.width (completed i (croppedRows page i)) x y = !page.get x y := by
  obtain ⟨hrow, hplace⟩ := Sample.place_lt hx hy
  have hlen (y : Nat) :
      ((List.range ((i.width + 7) / 8 * 8)).map fun x : Nat => !(x < i.width && page.get x y)).length =
        Sample.rowLength 1 i.width * 8 := by
    rw [List.length_map, List.length_range, Sample.rowLength, Nat.mul_one]
  rw [Sample.bit, completed, getD_ofBytes_fitTo_ones hplace, croppedRows]
  unfold packRow
  rw [getD_ofBytes_flatMap_pack hlen hrow]
  split
  · rw [Sample.rowLength, Nat.mul_one] at hrow
    simp [hrow, hx]
  · rw [get_of_height_le (by omega)]
    rfl

/-- The bits of an image are clear where the page is black, and its rows may be packed whole or pixel by pixel
where both can be done. -/
theorem decode?_keepsPixels {data : Bytes} {filterParams : Option Dict} {store : Store}
    (h : Bilevel.decodeEmbedded data (globals? filterParams store) = .ok page) (i : BaseImage) :
    ∃ packed, decode? data filterParams i store = some packed ∧
      packed.length = Sample.rowLength 1 i.width * i.height ∧
      ∀ x y, x < i.width → y < i.height →
        (Sample.bit i.width packed x y = false ↔
          x < page.width ∧ y < page.height ∧ page.get x y = true) ∧
        (page.width = i.width →
          Sample.bit i.width (completed i (wholeRows page)) x y =
            Sample.bit i.width (completed i (croppedRows page i)) x y) := by
  refine ⟨pack page i, ?_, ?_, fun x y hx hy => ⟨?_, fun hwidth => ?_⟩⟩
  · rw [decode?, h]
    rfl
  · rw [pack_eq]
    exact length_fitTo _ _ _
  · have hbit : Sample.bit i.width (pack page i) x y = !page.get x y := by
      rw [pack_eq]
      split
      · rename_i hwidth
        exact bit_wholeRows hwidth hx hy
      · exact bit_croppedRows hx hy
    rw [hbit, Bool.not_eq_false']
    exact get_eq_true_iff
  · rw [bit_wholeRows hwidth hx hy, bit_croppedRows hx hy]

/-- The black page of one pixel in an image of two by two pixels, whose other pixels are white. -/
theorem decode?_keepsPixels_dot :
    let page : Bytes := [0, 0, 0, 1, 0, 0, 0, 1, 0, 0, 0, 0, 0, 0, 0, 0, 4, 0, 0]
    let data : Bytes := [0, 0, 0, 0, 48, 0, 1, 0, 0, 0, 19] ++ page
    let dot : Bilevel.Bitmap := ⟨1, 1, #[true], true⟩
    let i : BaseImage := ⟨2, 2, 1, .gray, [], false, false, false, ⟨.empty, data, none⟩⟩
    Bilevel.decodeEmbedded data (globals? none .empty) = .ok dot ∧
      ∃ packed, decode? data none i .empty = some packed ∧ ∀ x y, x < 2 → y < 2 →
        (Sample.bit 2 packed x y = false ↔ x < 1 ∧ y < 1 ∧ dot.get x y = true) := by
  intro page data dot i
  have hdecoded : Bilevel.decodeEmbedded data (globals? none .empty) = .ok dot := by cbv
  obtain ⟨packed, hpacked, -, hbits⟩ := decode?_keepsPixels hdecoded i
  exact ⟨hdecoded, packed, hpacked, fun x y hx hy => (hbits x y hx hy).1⟩

end Folio.BilevelImage
