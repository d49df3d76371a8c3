import Folio.Color.Rgb
import Folio.Object.Cast

/-!
# Calibrated colors

Colors that are given by how the eye sees them. They are converted to tristimulus values, adapted to
the white of the screen by the Bradford transform, and encoded for the screen.
-/

namespace Folio

/-- Three singles: tristimulus values, responses of the eye, or intensities. -/
structure Triple where
  x : Float32
  y : Float32
  z : Float32

namespace Triple

/-- The combination of corresponding numbers. -/
def zip (f : Float32 → Float32 → Float32) (a b : Triple) : Triple :=
  ⟨f a.x b.x, f a.y b.y, f a.z b.z⟩

/-- The numbers under a function. -/
def map (f : Float32 → Float32) (a : Triple) : Triple := ⟨f a.x, f a.y, f a.z⟩

/-- The sum of the products of corresponding numbers. -/
def dot (a b : Triple) : Float32 := a.x * b.x + a.y * b.y + a.z * b.z

/-- Three times the same number. -/
def uniform (value : Float32) : Triple := ⟨value, value, value⟩

end Triple

/-- A matrix of three rows. -/
structure Matrix3 where
  row1 : Triple
  row2 : Triple
  row3 : Triple

/-- The product of a matrix and a column. -/
def Matrix3.apply (m : Matrix3) (v : Triple) : Triple := ⟨m.row1.dot v, m.row2.dot v, m.row3.dot v⟩

namespace Calibration

/-- Takes tristimulus values to the responses of the eye. -/
def bradford : Matrix3 :=
  ⟨⟨0.8951, 0.2664, -0.1614⟩, ⟨-0.7502, 1.7135, 0.0367⟩, ⟨0.0389, -0.0685, 1.0296⟩⟩

/-- Takes the responses of the eye to tristimulus values. -/
def bradfordInverse : Matrix3 :=
  ⟨⟨0.9869929, -0.1470543, 0.1599627⟩, ⟨0.4323053, 0.5183603, 0.0492912⟩,
    ⟨-0.0085287, 0.0400428, 0.9684867⟩⟩

/-- Takes tristimulus values under the screen's white to intensities of the screen. -/
def screenMatrix : Matrix3 :=
  ⟨⟨3.2404542, -1.5371385, -0.4985314⟩, ⟨-0.969266, 1.8760108, 0.0415560⟩,
    ⟨0.0556434, -0.2040259, 1.0572252⟩⟩

/-- The white whose values are all the same. -/
def flatWhite : Triple := .uniform 1

/-- The white of the screen. -/
def screenWhite : Triple := ⟨0.95047, 1, 1.08883⟩

/-- The encoding of an intensity for the screen. -/
def encode (intensity : Float32) : Float32 :=
  if intensity ≤ 0.0031308 then Single.clamp (12.92 * intensity) 0 1
  else if intensity ≥ 0.99554525 then 1
  else Single.clamp ((1 + 0.055) * intensity.pow (1 / 2.4) - 0.055) 0 1

/-- Tristimulus values seen under a white, as they are seen under a white that is flat. -/
def toFlatWhite (white values : Triple) : Triple :=
  if white.x == 1 && white.z == 1 then values
  else bradfordInverse.apply ((bradford.apply values).zip (· / ·) white)

/-- Tristimulus values seen under a white, as they are seen under the white of the screen. -/
def toScreenWhite (white values : Triple) : Triple :=
  bradfordInverse.apply (((bradford.apply values).zip (· * ·) screenWhite).zip (· / ·) white)

/-- The color of the screen that has tristimulus values under a white. -/
def toRgb (white values : Triple) : Rgb :=
  let c := screenMatrix.apply (toScreenWhite white values)
  let level (intensity : Float32) : UInt8 := (encode intensity * 255 + 0.5).toUInt8
  ⟨level c.x, level c.y, level c.z⟩

/-- The factor from a lightness of at most 8 to a luminance. -/
def linearFactor : Float32 := (8 + 16) / 116 * ((8 + 16) / 116) * ((8 + 16) / 116) / 8

/-- The luminance of a lightness that is not negative. -/
def luminanceOfPositive (lightness : Float32) : Float32 :=
  if lightness > 8 then
    let root := (lightness + 16) / 116
    root * (root * root)
  else lightness * linearFactor

/-- The luminance of a lightness. -/
def luminance (lightness : Float32) : Float32 :=
  if lightness < 0 then -luminanceOfPositive (-lightness) else luminanceOfPositive lightness

/-- Stretches tristimulus values so that a black point becomes black. -/
def compensateBlack (black values : Triple) : Triple :=
  if black.x == 0 && black.y == 0 && black.z == 0 then values
  else
    let stretch (black value : Float32) : Float32 :=
      let scale := 1 / (1 - luminance black)
      value * scale + (1 - scale)
    black.zip stretch values

/-- The array of `count` numbers under a key. Items that are no numbers are left out, and zeros are
added at the end in their place. -/
def numbers? (d : Dict) (key : Name) (count : Nat) : Option (List Float32) := do
  let items ← d.getAs? Object.array? key
  if items.length = count then some (Single.fit count (Object.float32s items)) else none

/-- The array of three numbers under a key. -/
def triple? (d : Dict) (key : Name) : Option Triple :=
  match numbers? d key 3 with
  | some [x, y, z] => some ⟨x, y, z⟩
  | _ => none

/-- The white of a color space: three positive numbers, or else the flat white. -/
def whitePoint (d : Dict) : Triple :=
  match triple? d "WhitePoint" with
  | some w => if w.x > 0 && w.y > 0 && w.z > 0 then w else flatWhite
  | none => flatWhite

end Calibration

open Calibration

/-- A calibrated space of grays. -/
structure CalGray where
  white : Triple
  gamma : Float32

namespace CalGray

/-- The space that a dictionary describes. -/
def ofDict (d : Dict) : CalGray :=
  ⟨whitePoint d, (d.getAs? Object.float32? "Gamma").getD 1⟩

/-- The color of a component. -/
def toRgb (s : CalGray) (component : Float32) : Rgb :=
  let luminance := s.white.y * (Single.clamp component 0 1).pow s.gamma
  let level := Single.max 0 (295.8 * luminance.pow 0.33333334 - 40.8) + 0.5
  .gray (Single.min level 255).toUInt8

end CalGray

/-- A calibrated space of red, green and blue. -/
structure CalRgb where
  white : Triple
  black : Triple
  /-- The tristimulus values of full red. -/
  red : Triple
  /-- The tristimulus values of full green. -/
  green : Triple
  /-- The tristimulus values of full blue. -/
  blue : Triple
  gamma : Triple

namespace CalRgb

/-- The space that a dictionary describes. -/
def ofDict (d : Dict) : CalRgb :=
  let (red, green, blue) : Triple × Triple × Triple :=
    match numbers? d "Matrix" 9 with
    | some [a, b, c, d, e, f, g, h, i] => (⟨a, b, c⟩, ⟨d, e, f⟩, ⟨g, h, i⟩)
    | _ => (⟨1, 0, 0⟩, ⟨0, 1, 0⟩, ⟨0, 0, 1⟩)
  { white := whitePoint d
    black := (triple? d "BlackPoint").getD (.uniform 0)
    red, green, blue
    gamma := (triple? d "Gamma").getD (.uniform 1) }

/-- The intensity of a component. -/
def intensity (component gamma : Float32) : Float32 :=
  let component := Single.clamp component 0 1
  if component == 1 then 1 else component.pow gamma

/-- The color of three components. -/
def toRgb (s : CalRgb) (r g b : Float32) : Rgb :=
  let r := intensity r s.gamma.x
  let g := intensity g s.gamma.y
  let b := intensity b s.gamma.z
  let values := ((s.red.map (· * r)).zip (· + ·) (s.green.map (· * g))).zip (· + ·)
    (s.blue.map (· * b))
  Calibration.toRgb flatWhite (compensateBlack s.black (toFlatWhite s.white values))

end CalRgb

/-- A space of a lightness and two components for the hue. -/
structure Lab where
  white : Triple
  /-- The range of the component from green to red. -/
  rangeA : Float32 × Float32
  /-- The range of the component from blue to yellow. -/
  rangeB : Float32 × Float32

namespace Lab

/-- The space that a dictionary describes. -/
def ofDict (d : Dict) : Lab :=
  match numbers? d "Range" 4 with
  | some [a0, a1, b0, b1] => ⟨whitePoint d, (a0, a1), (b0, b1)⟩
  | _ => ⟨whitePoint d, (-100, 100), (-100, 100)⟩

/-- The tristimulus value, relative to the white, of a value on the scale of lightness. -/
def stimulus (t : Float32) : Float32 :=
  if t ≥ 6 / 29 then t * t * t else 108 / 841 * (t - 4 / 29)

/-- The color of three components. -/
def toRgb (s : Lab) (l a b : Float32) : Rgb :=
  let fy := (Single.clamp l 0 100 + 16) / 116
  let fx := fy + Single.clampTo s.rangeA a / 500
  let fz := fy - Single.clampTo s.rangeB b / 200
  Calibration.toRgb s.white
    ⟨s.white.x * stimulus fx, s.white.y * stimulus fy, s.white.z * stimulus fz⟩

end Lab

end Folio
