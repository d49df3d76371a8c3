import Folio.Image.Base

/-!
# Masks

The opacities of an image come from another image, whose size may differ, or from a range of colors
that are transparent.
-/

namespace Folio

/-- A range of colors that are transparent. -/
structure ColorKey where
  low : Rgb
  high : Rgb
deriving DecidableEq

namespace ColorKey

/-- The color in the space of an image that every other sample of a list has. -/
def boundColor (i : BaseImage) (ratio : Float32) (samples : List Nat) : Rgb :=
  i.space.toRgb ratio (List.zipWith DecodeMap.apply i.decode samples)

/-- The range that an array of a lowest and a highest sample for each component states. It includes
all colors between those of the lowest and of the highest samples. -/
def ofItems? (items : List Object) (i : BaseImage) (ratio : Float32) : Option ColorKey := do
  let sample (x : Float32) : Nat := (Single.max x 0).toUInt32.toNat
  let bounds := Single.pairs (Object.float32s items)
  guard (i.space.components ≤ bounds.length ∧ i.space.components ≤ i.decode.length)
  let bounds := bounds.take i.space.components
  let a := boundColor i ratio (bounds.map fun b => sample b.1)
  let b := boundColor i ratio (bounds.map fun b => sample b.2)
  some
    { low := ⟨min a.red b.red, min a.green b.green, min a.blue b.blue⟩
      high := ⟨max a.red b.red, max a.green b.green, max a.blue b.blue⟩ }

/-- Whether a color is in the range. -/
def contains (k : ColorKey) (c : Rgb) : Bool :=
  k.low.red ≤ c.red && c.red ≤ k.high.red && k.low.green ≤ c.green && c.green ≤ k.high.green &&
    k.low.blue ≤ c.blue && c.blue ≤ k.high.blue

/-- The opacity of a color. -/
def alpha (k : ColorKey) (c : Rgb) : UInt8 := if k.contains c then 0 else 255

end ColorKey

namespace Mask

/-- The opacity that a color has as part of a mask. -/
def luminance (c : Rgb) : UInt8 :=
  let sum := 0.3 * c.red.toFloat32 + 0.59 * c.green.toFloat32 + 0.11 * c.blue.toFloat32 + 0.5
  (Single.min sum 255).toUInt8

/-- The place in `source` places that is at the same relative position as a place in `target`. -/
def scaledPlace (source target place : Nat) : Nat :=
  let factor := source.toFloat32 / target.toFloat32
  min (place.toFloat32 * factor).toUInt32.toNat (source - 1)

/-- The opacities of a mask for an image of another size, each from the nearest place before. -/
def resample (mask : BaseImage) (alphas : Bytes) (i : BaseImage) : Bytes :=
  if mask.width = i.width ∧ mask.height = i.height then alphas
  else
    let alphas := alphas.toArray
    (List.range i.height).flatMap fun y =>
      (List.range i.width).map fun x =>
        alphas.getD
          (scaledPlace mask.height i.height y * mask.width + scaledPlace mask.width i.width x) 0

end Mask

end Folio
