import Folio.Bilevel.Region
import Folio.Bilevel.Segment

/-!
# Decoding bilevel images

The image is the first page that the segments describe. Its segments end at the end of the page or
of the file, or where a second page begins.
-/

namespace Folio.Bilevel

/-- The page, which must have begun. -/
def requirePage (page : Option Page) : Except Error Page :=
  match page with
  | some p => .ok p
  | none => .error .missingPage

/-- The page after the data of a region has been painted on it. -/
def paintRegion (page : Option Page) (segment : Segment) : Except Error Page := do
  let p ← requirePage page
  let region ← Region.parse segment.data segment.header.length.isNone
  p.paint (← region.decode) region.info

/-- The page after the data of the end of a stripe. -/
def endStripe (page : Option Page) (segment : Segment) : Except Error Page := do
  let p ← requirePage page
  let (lastRow, _) ← Reader.number 4 segment.data
  p.endStripe lastRow

/-- The page after some segments. -/
def paintSegments : Option Page → List Segment → Except Error (Option Page)
  | page, [] => .ok page
  | page, segment :: rest =>
    match segment.header.kind with
    | .pageInformation =>
      if page.isSome then .ok page
      else do
        let (info, _) ← PageInfo.read segment.data
        let p ← Page.ofInfo info
        paintSegments (some p) rest
    | .genericRegion true => do
      let p ← paintRegion page segment
      paintSegments (some p) rest
    | .endOfStripe => do
      let p ← endStripe page segment
      paintSegments (some p) rest
    | .endOfPage | .endOfFile => .ok page
    | .unsupported true => .error .unsupported
    | .genericRegion false | .unsupported false | .ignored => paintSegments page rest

/-- The image that some segments describe. -/
def decodeSegments (segments : List Segment) : Except Error Bitmap := do
  let page ← paintSegments none segments
  (← requirePage page).finish

/-- The image in a file. -/
def decodeFile (data : Bytes) : Except Error Bitmap := do
  decodeSegments (← fileSegments data)

/-- The image in a stream of a document, where segments may be kept in a stream of their own. -/
def decodeEmbedded (data : Bytes) (globals : Option Bytes) : Except Error Bitmap := do
  let first ← match globals with
    | some globals => sequentialSegments globals
    | none => .ok []
  let segments ← sequentialSegments data
  decodeSegments (first ++ segments)

end Folio.Bilevel
