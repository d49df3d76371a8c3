import Folio.Bytes

/-!
# Readers of coded images

Two formats of images are complete by themselves. They are read by readers, which can be replaced.
-/

namespace Folio

/-- What a reader finds: values of eight bits for each component of each pixel, and opacities if the
image has them. -/
structure CodedRaster where
  width : Nat
  height : Nat
  components : Nat
  data : Bytes
  alpha : Option Bytes

namespace CodedRaster

/-- The number of pixels. -/
def size (r : CodedRaster) : Nat := r.width * r.height

/-- Whether there are as many values as the size of the image asks for. -/
def isConsistent (r : CodedRaster) : Bool :=
  r.data.length == r.size * r.components && r.alpha.all (·.length == r.size)

/-- The values of each pixel. -/
def pixels (r : CodedRaster) : List Bytes := r.data.exactBlocks r.components

end CodedRaster

/-- A reader, which may fail. -/
abbrev RasterReader := Bytes → Option CodedRaster

end Folio
