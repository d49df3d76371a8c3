import Folio.Bits
import Folio.Color.Space

/-!
# Samples

The pixels of an image are stored as samples, one for each component of the color space. Samples
have the same number of bits; rows begin at whole bytes. A decode map says what a sample stands for.
-/

namespace Folio

/-- A list with exactly `count` items: surplus ones are dropped, missing ones are `filler`. -/
def fitTo {α : Type} (count : Nat) (filler : α) (items : List α) : List α :=
  items.take count ++ List.replicate (count - items.length) filler

namespace Sample

/-- The samples of a row, completed with zeros. -/
def ofRow (bits count : Nat) (row : Bytes) : List Nat :=
  fitTo count 0 (Bits.numbers bits count (Bits.ofBytes row))

/-- The number of bytes of a row of `count` samples. -/
def rowLength (bits count : Nat) : Nat := (count * bits + 7) / 8

/-- The samples of an image of `height` rows with `count` samples each. Missing data is zero. -/
def unpack (bits count height : Nat) (data : Bytes) : List Nat :=
  let length := rowLength bits count
  let rows := Bytes.blocks length (data.take (length * height))
  fitTo (count * height) 0 (rows.flatMap (ofRow bits count))

end Sample

/-- A linear map from samples to values of a component. -/
structure DecodeMap where
  /-- The value of the sample 0. -/
  start : Float32
  /-- The difference between the values of consecutive samples. -/
  step : Float32

namespace DecodeMap

/-- The map that takes the samples of some bits to an interval. -/
def ofInterval (interval : Float32 × Float32) (bits : Nat) : DecodeMap :=
  ⟨interval.1, (interval.2 - interval.1) / ColorSpace.maxSample bits⟩

/-- The value of a sample. -/
def apply (m : DecodeMap) (sample : Nat) : Float32 := m.start + sample.toFloat32 * m.step

/-- The map to the same interval for samples of another number of bits. -/
def rescale (m : DecodeMap) (source target : Nat) : DecodeMap :=
  { m with step := m.step * ColorSpace.maxSample source / ColorSpace.maxSample target }

/-- The length of the interval that samples of some bits are taken to. -/
def span (m : DecodeMap) (bits : Nat) : Float32 := m.step * ColorSpace.maxSample bits

/-- Whether samples of some bits are taken to the interval from 0 to 1. -/
def isIdentity (m : DecodeMap) (bits : Nat) : Bool := m.start == 0 && Single.isNear (m.span bits) 1

/-- Whether samples of some bits are taken to the interval from 1 to 0. -/
def isInverted (m : DecodeMap) (bits : Nat) : Bool :=
  m.start == 1 && Single.isNear (m.span bits) (-1)

end DecodeMap

end Folio
