import Folio.Jpeg.Baseline

/-!
# What the decoding of images depends on
-/

namespace Folio

/-- The settings for decoding images. -/
structure ImageConfig where
  /-- What black is multiplied by where it is mixed with other inks. -/
  blackRatio : Float32 := 1
  /-- The ratio of width to height from which a missing dimension is computed. -/
  pageRatio : Float32 := 8.26 / 11.68
  /-- The reader for photographs. -/
  jpeg : Option RasterReader := some Jpeg.read?
  /-- The reader for images in wavelet compression, for which there is none by default. -/
  jpeg2000 : Option RasterReader := none

end Folio
