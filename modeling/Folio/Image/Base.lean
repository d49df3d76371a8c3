import Folio.Image.Config
import Folio.Image.Sample
import Folio.Resources

/-!
# Images without masks

What the dictionary of an image says about its own samples. Masks of an image are such images too.
-/

namespace Folio

/-- The parameters of an image, apart from its masks. -/
structure BaseImage where
  width : Nat
  height : Nat
  /-- The number of bits of a sample. -/
  bits : Nat
  space : ColorSpace
  /-- What the samples of each component stand for. -/
  decode : List DecodeMap
  /-- Whether the image is a stencil that is painted in one color. -/
  isStencil : Bool
  /-- Whether the coded data holds opacities that count. -/
  hasCodedAlpha : Bool
  /-- Whether the dictionary has an entry for the color space. -/
  statesSpace : Bool
  stream : Stream

namespace BaseImage

/-- The largest number of pixels. -/
def maxPixels : Nat := 1 <<< 30

/-- The number of pixels. -/
def size (i : BaseImage) : Nat := i.width * i.height

/-- The dimensions of an image. One that is zero is computed from the other. -/
def dimensions? (width height : Nat) (ratio : Float32) : Option (Nat × Nat) :=
  let (width, height) :=
    if width = 0 then ((ratio * height.toFloat32).round.toUInt32.toNat, height)
    else if height = 0 then (width, (width.toFloat32 / ratio).round.toUInt32.toNat)
    else (width, height)
  if width = 0 ∨ height = 0 ∨ maxPixels < width * height then none else some (width, height)

/-- The number of bits of a sample if the dictionary does not state it. -/
def defaultBits (isStencil : Bool) (filters : List FilterStep) : Nat :=
  if isStencil then 1
  else
    match filters.find? (·.1.isForImages) with
    | some (.fax, _) | some (.bilevel, _) => 1
    | _ => 8

/-- The intervals that the dictionary states for the components, if there are enough of them. -/
def statedDecode? (store : Store) (d : Dict) (components : Nat) :
    Option (List (Float32 × Float32)) := do
  let items ← store.entry? Object.array? d "Decode"
  let intervals := Single.pairs (Object.float32s items)
  guard (components ≤ intervals.length)
  some intervals

/-- The image that a stream holds; `space` is its color space if that is known already. A stencil is
gray whatever is said. -/
def ofStream? (s : Stream) (space : Option ColorSpace) (forceStencil : Bool) (r : Resources)
    (config : ImageConfig) : Option BaseImage := do
  let d := s.dict
  let isStencil := forceStencil || (r.store.entry? Object.bool? d "ImageMask").getD false
  let filters ← (s.filters r.store).toOption
  let space :=
    if isStencil then .gray
    else (space.or ((d.get? "ColorSpace").bind r.colorSpace?)).getD .gray
  let bits := ((r.store.entry? Object.uint8? d "BitsPerComponent").map UInt8.toNat).getD
    (defaultBits isStencil filters)
  guard (bits ∈ [1, 2, 4, 8, 16])
  let stated (key : Name) : Nat := ((r.store.entry? Object.uint32? d key).getD 0).toNat
  let (width, height) ← dimensions? (stated "Width") (stated "Height") config.pageRatio
  let intervals := (statedDecode? r.store d space.components).getD (space.defaultDecode bits)
  some
    { width, height, bits, space, isStencil
      decode := (intervals.take space.components).map fun i => .ofInterval i bits
      hasCodedAlpha := (r.store.entry? Object.uint8? d "SMaskInData").any (· != 0)
      statesSpace := d.contains "ColorSpace"
      stream := s }

/-- The decode maps for samples of another number of bits. -/
def decodeFor (i : BaseImage) (bits : Nat) : List DecodeMap := i.decode.map (·.rescale i.bits bits)

end BaseImage

end Folio
