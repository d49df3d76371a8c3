import Folio.Color.Rgb

/-!
# Rasters

A decoded image: a rectangle of colored pixels of which each is opaque to some degree.
-/

namespace Folio

/-- A color and its opacity. -/
structure Pixel where
  color : Rgb
  alpha : UInt8
deriving DecidableEq

namespace Pixel

/-- A pixel through which the background is seen. -/
def transparent : Pixel := ⟨.black, 0⟩

/-- A pixel that hides the background. -/
def opaqueOf (color : Rgb) : Pixel := ⟨color, 255⟩

/-- The levels of the color and the opacity. -/
def bytes (p : Pixel) : Bytes := p.color.bytes ++ [p.alpha]

end Pixel

/-- A decoded image, row after row. -/
structure Raster where
  width : Nat
  height : Nat
  pixels : List Pixel
  /-- The color that a stencil was painted with. -/
  stencilFill : Option Rgb
deriving DecidableEq

namespace Raster

/-- The pixel at a position inside the raster. -/
def pixel? (r : Raster) (x y : Nat) : Option Pixel :=
  if x < r.width then r.pixels[y * r.width + x]? else none

/-- The levels of all pixels. -/
def bytes (r : Raster) : Bytes := r.pixels.flatMap Pixel.bytes

end Raster

end Folio
