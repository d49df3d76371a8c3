import Folio.Color.Rgb

/-!
# Inks

Four inks are mixed by a blend of the colors that full amounts of cyan, magenta and yellow have on
paper. Black counts as all three.
-/

namespace Folio

/-- Amounts of four inks. -/
structure Cmyk where
  cyan : Float32
  magenta : Float32
  yellow : Float32
  black : Float32

namespace Cmyk

/-- The double in 0 to 1 that is nearest to `x`. -/
def clip (x : Float) : Float := if x < 0 then 0 else if 1 < x then 1 else x

/-- The level nearest to an intensity that does not exceed 1. -/
def level (intensity : Float) : UInt8 := ((clip intensity).toFloat32 * 255 + 0.5).toUInt8

/-- The amount of black that is mixed in: `ratio` times black, or just black if one of the other
inks is missing. -/
def effectiveBlack (ink : Cmyk) (ratio : Float32) : Float32 :=
  if ink.cyan != 0 && ink.magenta != 0 && ink.yellow != 0 then ink.black * ratio else ink.black

/-- The color that the inks have on white paper. The mixture consists of unprinted paper, one of
the inks alone, two of them, or all, which is black. -/
def toRgb (ink : Cmyk) (ratio : Float32) : Rgb :=
  let k := ink.effectiveBlack ratio
  let c := clip (ink.cyan + k).toFloat
  let m := clip (ink.magenta + k).toFloat
  let y := clip (ink.yellow + k).toFloat
  let paper := (1 - c) * (1 - m) * (1 - y)
  let cyan := c * (1 - m) * (1 - y)
  let magenta := (1 - c) * m * (1 - y)
  let yellow := (1 - c) * (1 - m) * y
  let red := (1 - c) * m * y
  let green := c * (1 - m) * y
  let blue := c * m * (1 - y)
  { red := level (paper + 0.9137 * magenta + 0.9961 * yellow + 0.9882 * red)
    green := level (paper + 0.6196 * cyan + yellow + 0.5176 * green)
    blue := level (paper + 0.7804 * cyan + 0.5412 * magenta + 0.0667 * red + 0.2118 * green +
      0.4863 * blue) }

/-- The inks whose amounts are stored in one byte each. -/
def ofLevels (c m y k : UInt8) : Cmyk :=
  ⟨Rgb.intensity c, Rgb.intensity m, Rgb.intensity y, Rgb.intensity k⟩

end Cmyk

end Folio
