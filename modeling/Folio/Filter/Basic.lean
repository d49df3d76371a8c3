import Folio.Filter.Ascii
import Folio.Filter.Flate
import Folio.Filter.Predictor
import Folio.Filter.RunLength

/-!
# Filters

The encodings that the data of a stream may have. The filters for images are known here by name
only: what they decode to depends on the image.
-/

namespace Folio

/-- An encoding of stream data. -/
inductive Filter where
  | asciiHex
  | ascii85
  | flate
  | runLength
  | fax
  | jpeg
  | bilevel
  | jpeg2000
  | crypt
deriving DecidableEq

namespace Filter

/-- The filter with a name or an abbreviation. -/
def ofName? (n : Name) : Option Filter :=
  if n = "ASCIIHexDecode" ∨ n = "AHx" then some asciiHex
  else if n = "ASCII85Decode" ∨ n = "A85" then some ascii85
  else if n = "FlateDecode" ∨ n = "Fl" then some flate
  else if n = "RunLengthDecode" ∨ n = "RL" then some runLength
  else if n = "CCITTFaxDecode" ∨ n = "CCF" then some fax
  else if n = "DCTDecode" ∨ n = "DCT" then some jpeg
  else if n = "JBIG2Decode" then some bilevel
  else if n = "JPXDecode" then some jpeg2000
  else if n = "Crypt" then some crypt
  else none

/-- Whether only an image can be decoded with the filter. -/
def isForImages : Filter → Bool
  | fax | jpeg | bilevel | jpeg2000 => true
  | _ => false

/-- The data without the encoding. Decryption comes before all filters, so that the filter for it
changes nothing. -/
def decode? (f : Filter) (data : Bytes) (params : Option Dict) : Option Bytes :=
  match f with
  | asciiHex => AsciiHex.decode? data
  | ascii85 => Ascii85.decode? data
  | flate =>
    (Flate.decode? data).bind ((params.map Predictor.ofDict).getD {}).undo?
  | runLength => some (RunLength.decode data)
  | crypt => some data
  | fax | jpeg | bilevel | jpeg2000 => none

end Filter

end Folio
