import Folio.Fax.Basic

/-!
# Bilevel image data

The errors of segmented bilevel images, and the reading of the numbers in them. A reader takes
what it needs from the front of some data.
-/

namespace Folio.Bilevel

/-- Why an image cannot be decoded. -/
inductive Error where
  | unexpectedEnd
  | invalidHeader
  | invalidSegment
  /-- A segment refers to one that does not come before it. -/
  | invalidReference
  | missingPage
  | invalidRegion
  /-- An adaptive pixel of a template would not be decoded yet. -/
  | invalidTemplatePixel
  | missingEndMarker
  | overflow
  /-- A region in fax coding cannot be decoded. -/
  | fax (error : Fax.Error)
  | unsupported
deriving DecidableEq

namespace Error

/-- The wording of an error. -/
def message : Error → String
  | unexpectedEnd => "unexpected end of data"
  | invalidHeader => "invalid file header"
  | invalidSegment => "invalid segment header"
  | invalidReference => "invalid segment reference"
  | missingPage => "missing page information"
  | invalidRegion => "invalid region parameters"
  | invalidTemplatePixel => "invalid adaptive template pixel"
  | missingEndMarker => "missing end marker for region of unknown length"
  | overflow => "image is too large"
  | fax error => "MMR decoding failed: " ++ error.message
  | unsupported => "unsupported segment type"

/-- An error of bilevel data as one of the document. -/
def report : Error → ErrorReport
  | unsupported => ⟨.unsupported, "JBIG2 segment type"⟩
  | _ => ⟨.codec, "invalid JBIG2 data"⟩

end Error

/-- A step that reads from the front of some data. -/
abbrev Reader := StateT Bytes (Except Error)

namespace Reader

/-- The next `count` bytes. -/
def bytes (count : Nat) : Reader Bytes := fun data =>
  match data.splitAt? count with
  | some (taken, rest) => .ok (taken, rest)
  | none => .error .unexpectedEnd

/-- The next `count` bytes as a number, highest byte first. -/
def number (count : Nat) : Reader Nat := do
  let taken ← bytes count
  pure taken.toNatBE

/-- The next byte as a number from -128 to 127. -/
def signedByte : Reader Int := do
  let n ← number 1
  pure (if n < 128 then n else (n : Int) - 256)

end Reader

/-- The largest number of pixels of a page or a region. -/
def maxPixels : Nat := 1 <<< 30

/-- Refuses sizes of too many pixels. -/
def checkSize (width height : Nat) : Except Error Unit :=
  if maxPixels < width * height then .error .overflow else .ok ()

end Folio.Bilevel
