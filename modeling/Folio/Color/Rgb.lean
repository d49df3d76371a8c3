import Folio.Bytes
import Folio.Single

/-!
# Colors of the screen
-/

namespace Folio

/-- A color of the screen. -/
structure Rgb where
  red : UInt8
  green : UInt8
  blue : UInt8
deriving DecidableEq

namespace Rgb

/-- The gray of a level. -/
def gray (level : UInt8) : Rgb := ⟨level, level, level⟩

/-- Black. -/
def black : Rgb := gray 0

/-- White. -/
def white : Rgb := gray 255

/-- The three levels of the color. -/
def bytes (c : Rgb) : Bytes := [c.red, c.green, c.blue]

/-- The level nearest to an intensity, which counts as 0 or 1 outside of that range. -/
def level (intensity : Float32) : UInt8 := (Single.clamp intensity 0 1 * 255 + 0.5).toUInt8

/-- The color of three intensities. -/
def ofIntensities (red green blue : Float32) : Rgb := ⟨level red, level green, level blue⟩

/-- The intensity of a level. -/
def intensity (level : UInt8) : Float32 := level.toFloat32 / 255

end Rgb

end Folio
