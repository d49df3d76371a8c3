import Folio.Image.Base

/-!
# Images in wavelet compression

A reader gives the channels of the image with eight bits each. They are colors of the stated color
space if it has as many components; else their number alone says what they are.
-/

namespace Folio.Jpeg2000Image

/-- The color of the channels of a pixel by their number. -/
def colorByCount (ratio : Float32) : Bytes → Rgb
  | [r, g, b] => ⟨r, g, b⟩
  | [c, m, y, k] => (Cmyk.ofLevels c m y k).toRgb ratio
  | v :: _ => .gray v
  | [] => .black

/-- The number of a color that is stored in a channel, where few bits are spread over all eight. -/
def indexOf (v : UInt8) (bits : Nat) : Float32 :=
  if 8 ≤ bits then v.toFloat32 else (v.toFloat32 * ColorSpace.maxSample bits / 255).round

/-- The color of the channels of a pixel in the color space of the image. -/
def colorInSpace? (i : BaseImage) (ratio : Float32) (channels : Bytes) : Option Rgb :=
  match i.space, channels with
  | .indexed _ _ _, [v] => some (i.space.toRgb ratio [indexOf v i.bits])
  | s, channels =>
    if channels.length = 1 ∧ s.isNamedColor then channels.head?.map Rgb.gray
    else if s.components = channels.length then s.convertLevels? ratio channels
    else none

/-- The colors of a raster. -/
def colors (r : CodedRaster) (i : BaseImage) (ratio : Float32) : List Rgb :=
  let converted := if i.statesSpace then r.pixels.mapM (colorInSpace? i ratio) else none
  converted.getD (r.pixels.map (colorByCount ratio))

/-- The colors and the opacities of an image, row after row whatever the width of the raster is. -/
def decode? (data : Bytes) (i : BaseImage) (config : ImageConfig) :
    Option (List Rgb × Option Bytes) := do
  let reader ← config.jpeg2000
  let r ← reader data
  guard r.isConsistent
  let found := fitTo r.size .black (colors r i config.blackRatio)
  some (fitTo i.size .black found, r.alpha.map (fitTo i.size 255))

end Folio.Jpeg2000Image
