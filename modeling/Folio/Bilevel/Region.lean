import Folio.Bilevel.Arithmetic
import Folio.Bilevel.Page
import Folio.Fax.Decode

/-!
# Generic regions

A region is a bitmap in fax coding or in arithmetic coding. In the latter, the context of a pixel
is the colors of some pixels before it, which a template chooses; a few of them are placed by the
region itself. With typical prediction, a row may be marked as equal to the one before it.
-/

namespace Folio.Bilevel

/-- A pixel of a template. -/
inductive TemplatePixel where
  /-- At a distance from the pixel being decoded. -/
  | fixed (x y : Int)
  /-- Placed by the region. -/
  | adaptive (index : Nat)
deriving DecidableEq

open TemplatePixel in
/-- The pixels of a template, the highest bit of the context first. -/
def template : Nat → List TemplatePixel
  | 0 => [adaptive 3, fixed (-1) (-2), fixed 0 (-2), fixed 1 (-2), adaptive 2, adaptive 1,
      fixed (-2) (-1), fixed (-1) (-1), fixed 0 (-1), fixed 1 (-1), fixed 2 (-1), adaptive 0,
      fixed (-4) 0, fixed (-3) 0, fixed (-2) 0, fixed (-1) 0]
  | 1 => [fixed (-1) (-2), fixed 0 (-2), fixed 1 (-2), fixed 2 (-2), fixed (-2) (-1),
      fixed (-1) (-1), fixed 0 (-1), fixed 1 (-1), fixed 2 (-1), adaptive 0, fixed (-3) 0,
      fixed (-2) 0, fixed (-1) 0]
  | 2 => [fixed (-1) (-2), fixed 0 (-2), fixed 1 (-2), fixed (-2) (-1), fixed (-1) (-1),
      fixed 0 (-1), fixed 1 (-1), adaptive 0, fixed (-2) 0, fixed (-1) 0]
  | _ => [fixed (-3) (-1), fixed (-2) (-1), fixed (-1) (-1), fixed 0 (-1), fixed 1 (-1),
      adaptive 0, fixed (-4) 0, fixed (-3) 0, fixed (-2) 0, fixed (-1) 0]

/-- The context in which the marks of typical prediction are decoded. -/
def typicalContext : Nat → Nat
  | 0 => 0b1001101100100101
  | 1 => 0b1111001010101
  | 2 => 0b1110010101
  | _ => 0b0110010101

/-- A generic region as its segment describes it. -/
structure Region where
  info : RegionInfo
  faxCoded : Bool
  template : Nat
  typicalPrediction : Bool
  /-- The distances of the adaptive pixels. -/
  adaptivePixels : List (Int × Int)
  /-- The coded pixels. -/
  data : Bytes

namespace Region

/-- The distances of `count` adaptive pixels, each of which must come before the pixel being
decoded. -/
def readAdaptivePixels : Nat → Reader (List (Int × Int))
  | 0 => pure []
  | count + 1 => do
    let x ← Reader.signedByte
    let y ← Reader.signedByte
    if y > 0 ∨ (y = 0 ∧ x ≥ 0) then throw .invalidTemplatePixel
    let others ← readAdaptivePixels count
    pure ((x, y) :: others)

/-- The region without the row count at the end of its data, which becomes its height. -/
def dropRowCount (r : Region) : Except Error Region :=
  if r.data.length < 4 then .error .unexpectedEnd
  else
    let (body, count) := r.data.splitAt (r.data.length - 4)
    let height := Bytes.toNatBE count
    if r.info.height < height then .error .invalidRegion
    else .ok { r with info := { r.info with height }, data := body }

/-- The region that the data of its segment describes. Where the length of the segment is unknown,
the data ends with a row count. -/
def parse (data : Bytes) (unknownLength : Bool) : Except Error Region := do
  let (info, data) ← RegionInfo.read data
  let (flags, data) ← Reader.number 1 data
  let faxCoded := flags % 2 == 1
  let template := flags / 2 % 4
  if flags / 16 % 2 = 1 then throw .unsupported
  let count := if faxCoded then 0 else if template = 0 then 4 else 1
  let (adaptivePixels, data) ← readAdaptivePixels count data
  let r : Region := ⟨info, faxCoded, template, flags / 8 % 2 == 1, adaptivePixels, data⟩
  if unknownLength then r.dropRowCount else .ok r

/-- The distances of the pixels of the region's template. -/
def offsets (r : Region) : List (Int × Int) :=
  (Bilevel.template r.template).map fun pixel =>
    match pixel with
    | .fixed x y => (x, y)
    | .adaptive i => r.adaptivePixels.getD i (0, 0)

/-- The context of a pixel in a bitmap. -/
def context (b : Bitmap) (offsets : List (Int × Int)) (x y : Nat) : Nat :=
  offsets.foldl (fun cx (dx, dy) => cx * 2 + (b.get (x + dx) (y + dy)).toNat) 0

/-- The state in the middle of a region in arithmetic coding. -/
structure Progress where
  /-- The pixels so far. -/
  bitmap : Bitmap
  decoder : ArithmeticDecoder
  contexts : Array BitContext
  /-- Whether the last row was marked as equal to the one before it. -/
  typical : Bool := false

namespace Progress

/-- The next bit in the context with a number, and the state after it. -/
def bit (s : Progress) (cx : Nat) : Bool × Progress :=
  let (bit, context, decoder) := s.decoder.decode (s.contexts.getD cx {})
  (bit, { s with decoder, contexts := s.contexts.setIfInBounds cx context })

/-- The state after a pixel. -/
def pixel (offsets : List (Int × Int)) (y : Nat) (s : Progress) (x : Nat) : Progress :=
  let (black, s) := s.bit (context s.bitmap offsets x y)
  { s with bitmap := s.bitmap.push black }

/-- The state after a row that is equal to the one before it, which is white before the first. -/
def repeatRow (s : Progress) (y : Nat) : Progress :=
  (List.range s.bitmap.width).foldl (fun s (x : Nat) =>
    { s with bitmap := s.bitmap.push (s.bitmap.get x ((y : Int) - 1)) }) s

/-- The state after a row. -/
def row (r : Region) (offsets : List (Int × Int)) (s : Progress) (y : Nat) : Progress :=
  let s :=
    if r.typicalPrediction then
      let (changed, s) := s.bit (typicalContext r.template)
      { s with typical := s.typical != changed }
    else s
  if s.typical then s.repeatRow y
  else (List.range r.info.width).foldl (pixel offsets y) s

end Progress

/-- The bitmap of a region in arithmetic coding. -/
def decodeArithmetic (r : Region) : Bitmap :=
  let offsets := r.offsets
  let start : Progress :=
    { bitmap := ⟨r.info.width, r.info.height, #[], false⟩
      decoder := .start r.data
      contexts := Array.replicate (1 <<< offsets.length) {} }
  ((List.range r.info.height).foldl (Progress.row r offsets) start).bitmap

/-- The bitmap of a region in fax coding. -/
def decodeFax (r : Region) : Except Error Bitmap :=
  match Fax.decode r.data ⟨.twoDimensional, r.info.width, r.info.height, false⟩ with
  | .ok image => .ok (.ofFn r.info.width r.info.height false image.isBlack)
  | .error e => .error (.fax e)

/-- The bitmap of a region. -/
def decode (r : Region) : Except Error Bitmap :=
  if r.info.width = 0 ∨ r.info.height = 0 then .ok (.blank r.info.width r.info.height false)
  else if r.faxCoded then r.decodeFax
  else .ok r.decodeArithmetic

end Region

end Folio.Bilevel
