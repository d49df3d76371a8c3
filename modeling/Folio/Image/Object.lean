import Folio.Image.Masked

/-!
# Image objects

An image of a document is decoded when it is needed, and what it was decoded to is kept. Its color
space is looked up once, in the resources with which it is first needed.
-/

namespace Folio

/-- An image of a document, with what is kept of it. -/
structure ImageObject where
  stream : Stream
  /-- The color space, once it has been looked up. -/
  knownSpace : Option ColorSpace := none
  /-- What the image was decoded to last. -/
  kept : Option Raster := none

namespace ImageObject

/-- The dimensions that the dictionary states itself, or else zeros. -/
def dimensions (i : ImageObject) (config : ImageConfig) : Nat × Nat :=
  let stated (key : Name) : Nat := ((i.stream.dict.getAs? Object.uint32? key).getD 0).toNat
  (BaseImage.dimensions? (stated "Width") (stated "Height") config.pageRatio).getD (0, 0)

/-- Whether the dictionary states itself that the image is a stencil. -/
def isStencil (i : ImageObject) : Bool :=
  (i.stream.dict.getAs? Object.bool? "ImageMask").getD false

/-- The color space of the image. -/
def space (i : ImageObject) (r : Resources) : ColorSpace :=
  i.knownSpace.getD (((i.stream.dict.get? "ColorSpace").bind r.colorSpace?).getD .gray)

/-- The image after its color space has been looked up. -/
def withSpace (i : ImageObject) (r : Resources) : ImageObject :=
  { i with knownSpace := some (i.space r) }

/-- The parameters and the masks of the image. -/
def masked? (i : ImageObject) (r : Resources) (config : ImageConfig) : Option MaskedImage :=
  MaskedImage.ofStream? i.stream (some (i.space r)) r config

/-- What was kept of the image, if it can be used again: a stencil only if its color is the same. -/
def reusable? (i : ImageObject) (fill : Rgb) : Option Raster :=
  i.kept.filter fun raster => raster.stencilFill.all (· == fill)

/-- The decoded image, a stencil being painted in the color `fill`, and the image afterwards. -/
def draw (i : ImageObject) (fill : Rgb) (r : Resources) (config : ImageConfig) :
    Option Raster × ImageObject :=
  match i.reusable? fill with
  | some raster => (some raster, i)
  | none =>
    match (i.masked? r config).bind fun m => m.decode? fill r.store config with
    | some raster => (some raster, { i.withSpace r with kept := some raster })
    | none => (none, i.withSpace r)

/-- The image without what it was decoded to. -/
def discard (i : ImageObject) : ImageObject := { i with kept := none }

end ImageObject

end Folio
