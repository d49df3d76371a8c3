import Folio.Image.Bilevel
import Folio.Image.Color
import Folio.Image.Fax
import Folio.Image.Jpeg
import Folio.Image.Jpeg2000
import Folio.Image.Mask
import Folio.Image.Raster

/-!
# Images

An image has colors of its own and may have one mask: a soft mask, whose luminance is the opacity, a
stencil, or a range of transparent colors. Decoding runs the filter for images, if there is one, and
takes the data as packed samples if that fails.
-/

namespace Folio

/-- The samples of an image before its masks are applied. -/
inductive Samples where
  /-- Samples of some bits, packed as the color space asks for. -/
  | packed (bits : Nat) (data : Bytes)
  /-- Colors, and opacities if the coded data holds them. -/
  | colors (colors : List Rgb) (alphas : Option Bytes)

/-- The explicit mask of an image. -/
inductive ExplicitMask where
  | stencil (image : BaseImage)
  | colorKey (key : ColorKey)

/-- An image with its masks. A soft mask takes the place of an explicit one. -/
structure MaskedImage where
  base : BaseImage
  mask : Option ExplicitMask
  softMask : Option BaseImage

namespace BaseImage

/-- The samples that the data of a filter for images encodes. -/
def applyFilter? (i : BaseImage) (filter : FilterStep) (data : Bytes) (store : Store)
    (config : ImageConfig) : Option Samples :=
  match filter with
  | (.fax, params) => (FaxImage.decode? data params i store).map (.packed 1)
  | (.bilevel, params) => (BilevelImage.decode? data params i store).map (.packed 1)
  | (.jpeg, params) =>
    (JpegImage.decode? data params i config).map fun colors => .colors colors none
  | (.jpeg2000, _) =>
    (Jpeg2000Image.decode? data i config).map fun (colors, alphas) => .colors colors alphas
  | _ => none

/-- The samples of an image. -/
def samples? (i : BaseImage) (store : Store) (config : ImageConfig) : Option Samples := do
  let decoded ← (i.stream.decode store).toOption
  let samples := decoded.imageFilter.bind fun f => i.applyFilter? f decoded.data store config
  some (samples.getD (.packed i.bits decoded.data))

/-- The colors of samples. -/
def colorsOf (i : BaseImage) (config : ImageConfig) : Samples → List Rgb
  | .packed bits data => i.packedColors bits config.blackRatio data
  | .colors colors _ => colors

/-- Where a stencil is painted: 255, or 0 where it is not. -/
def coverage (i : BaseImage) (samples : Samples) : Bytes :=
  let painted (map : DecodeMap) (sample : Nat) : UInt8 := if map.apply sample < 0.5 then 255 else 0
  match samples with
  | .packed bits data =>
    let map := (i.decodeFor bits).headD (.ofInterval (0, 1) bits)
    (Sample.unpack bits i.width i.height data).map (painted map)
  | .colors colors _ =>
    let map := (i.decodeFor 1).headD ⟨0, 1⟩
    colors.map fun c => painted map (if 128 ≤ c.red then 1 else 0)

/-- The opacities that an image has as a soft mask. -/
def luminances? (i : BaseImage) (store : Store) (config : ImageConfig) : Option Bytes :=
  (i.samples? store config).map fun samples => (i.colorsOf config samples).map Mask.luminance

/-- The opacities that an image has as a stencil mask. -/
def coverage? (i : BaseImage) (store : Store) (config : ImageConfig) : Option Bytes :=
  (i.samples? store config).map i.coverage

end BaseImage

namespace MaskedImage

/-- The explicit mask that the dictionary of an image states. -/
def explicitMask? (i : BaseImage) (r : Resources) (config : ImageConfig) : Option ExplicitMask := do
  match ← (i.stream.dict.get? "Mask").bind r.store.resolve? with
  | .stream s => (BaseImage.ofStream? s none true r config).map .stencil
  | .array items => (ColorKey.ofItems? items i config.blackRatio).map .colorKey
  | _ => none

/-- The image that a stream holds; `space` is its color space if that is known already. -/
def ofStream? (s : Stream) (space : Option ColorSpace) (r : Resources) (config : ImageConfig) :
    Option MaskedImage := do
  let base ← BaseImage.ofStream? s space false r config
  let softMask := (r.store.entry? Object.stream? s.dict "SMask").bind fun mask =>
    BaseImage.ofStream? mask none false r config
  let mask := if softMask.isSome then none else explicitMask? base r config
  some ⟨base, mask, softMask⟩

/-- The opacities of the pixels with the given colors; a mask that cannot be decoded hides
nothing. -/
def alphas? (i : MaskedImage) (colors : List Rgb) (coded : Option Bytes) (store : Store)
    (config : ImageConfig) : Option Bytes :=
  match i.softMask, i.base.hasCodedAlpha, coded with
  | some mask, _, _ => (mask.luminances? store config).map fun a => Mask.resample mask a i.base
  | none, true, some coded => some (fitTo i.base.size 255 coded)
  | none, _, _ =>
    match i.mask with
    | some (.stencil mask) =>
      (mask.coverage? store config).map fun a => Mask.resample mask a i.base
    | some (.colorKey key) => some (colors.map key.alpha)
    | none => none

/-- The pixels of a stencil that is painted in a color. -/
def stencilPixels (i : BaseImage) (samples : Samples) (fill : Rgb) : List Pixel :=
  (i.coverage samples).map fun a => if a = 255 then .opaqueOf fill else .transparent

/-- The pixels of an image that is no stencil. -/
def pixels (i : MaskedImage) (samples : Samples) (store : Store) (config : ImageConfig) :
    List Pixel :=
  let colors := i.base.colorsOf config samples
  let coded := match samples with
    | .packed _ _ => none
    | .colors _ alphas => alphas
  let alphas := fitTo i.base.size 255 ((i.alphas? colors coded store config).getD [])
  List.zipWith Pixel.mk colors alphas

/-- The decoded image. A stencil is painted in the color `fill`. -/
def decode? (i : MaskedImage) (fill : Rgb) (store : Store) (config : ImageConfig) :
    Option Raster := do
  let samples ← i.base.samples? store config
  if i.base.isStencil then
    some ⟨i.base.width, i.base.height, stencilPixels i.base samples fill, some fill⟩
  else some ⟨i.base.width, i.base.height, i.pixels samples store config, none⟩

end MaskedImage

end Folio
