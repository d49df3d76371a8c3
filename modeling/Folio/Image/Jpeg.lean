import Folio.Image.Base
import Folio.Jpeg.Marker

/-!
# Photographs

A reader gives the components of a photograph as they are stored. What they mean follows from the
markings of the data, and only then from the color space of the image.
-/

namespace Folio.JpegImage

/-- How many bytes are searched for markings. -/
def searchLimit : Nat := 2048

/-- The level of a value, of which what lies outside of 0 to 255 counts as the nearest bound. -/
def roundLevel (x : Float32) : UInt8 := (Single.clamp (x + 0.5) 0 255).toUInt8

/-- The color of a luminance and two differences. -/
def ofYcc (y cb cr : UInt8) : Rgb :=
  let y := y.toFloat32
  let cb := cb.toFloat32 - 128
  let cr := cr.toFloat32 - 128
  ⟨roundLevel (y + 1.402 * cr), roundLevel (y - 0.344136 * cb - 0.714136 * cr),
    roundLevel (y + 1.772 * cb)⟩

/-- The amounts of inks of a luminance, two differences, and black, all of which are stored
inverted. -/
def ofYcck (y cb cr k : UInt8) : Cmyk :=
  let y := y.toFloat32
  let cb := cb.toFloat32
  let cr := cr.toFloat32
  .ofLevels (434.456 - y - 1.402 * cr).toUInt8 (119.541 - y + 0.344 * cb + 0.714 * cr).toUInt8
    (481.816 - y - 1.772 * cb).toUInt8 (255 - k)

/-- The encoding of a raster's components: the one of the markings if it has as many. -/
def encodingOf (m : Option Jpeg.Markings) (parameter : Option UInt8) (components : Nat) :
    Jpeg.Encoding :=
  ((m.map fun m => Jpeg.Encoding.ofMarkings m parameter).filter
    (·.components = components)).getD (.ofComponents components)

/-- The colors of grays. In most spaces of one component the levels are taken as they are. -/
def grayColors (levels : Bytes) (i : BaseImage) (ratio : Float32) : List Rgb :=
  let inverted := i.decode.head?.any (·.isInverted i.bits)
  let levels := if inverted then levels.map (255 - ·) else levels
  let plain := match i.space with
    | .gray | .profile _ _ | .indexed _ _ _ => true
    | s => s.isNamedColor || s.components != 1
  let converted := if plain then none else levels.mapM fun v => i.space.convertLevels? ratio [v]
  converted.getD (levels.map Rgb.gray)

/-- The color of the levels of red, green and blue. -/
def plainColor : Bytes → Rgb
  | [r, g, b] => ⟨r, g, b⟩
  | _ => .black

/-- The colors of a raster with an encoding. Where a marking states a transform, inks are stored
inverted. -/
def colors (r : CodedRaster) (encoding : Jpeg.Encoding) (inverted : Bool) (i : BaseImage)
    (ratio : Float32) : List Rgb :=
  match encoding with
  | .gray => grayColors r.data i ratio
  | .rgb =>
    let converted := if i.space.components = 3 then r.pixels.mapM (i.space.convertLevels? ratio)
      else none
    converted.getD (r.pixels.map plainColor)
  | .ycc => (Bytes.exactBlocks 3 r.data).map fun
    | [y, cb, cr] => ofYcc y cb cr
    | _ => .black
  | .cmyk => r.pixels.map fun
    | [c, m, y, k] =>
      let stored (v : UInt8) : UInt8 := if inverted then 255 - v else v
      (Cmyk.ofLevels (stored c) (stored m) (stored y) (stored k)).toRgb ratio
    | _ => .black
  | .ycck => r.pixels.map fun
    | [y, cb, cr, k] => (ofYcck y cb cr k).toRgb ratio
    | _ => .black

/-- The colors of an image, row after row whatever the width of the photograph is. -/
def decode? (data : Bytes) (filterParams : Option Dict) (i : BaseImage) (config : ImageConfig) :
    Option (List Rgb) := do
  let reader ← config.jpeg
  let r ← reader data
  guard r.isConsistent
  let parameter := filterParams.bind fun d => d.getAs? Object.uint8? "ColorTransform"
  let m := Jpeg.findMarkings? (data.take searchLimit)
  let inverted := m.any (·.transform.isSome)
  let found := colors r (encodingOf m parameter r.components) inverted i config.blackRatio
  some (fitTo i.size .black (fitTo r.size .black found))

end Folio.JpegImage
