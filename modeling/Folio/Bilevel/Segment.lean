import Folio.Bilevel.Basic

/-!
# Segments

Bilevel data is a sequence of segments, each a header and data. In a file the headers may also all
come first. The length of a region may be left open; its data then goes on to a marker and a row
count.
-/

namespace Folio.Bilevel

/-- What a segment contributes to the page. -/
inductive SegmentKind where
  | pageInformation
  | endOfPage
  | endOfStripe
  | endOfFile
  /-- A generic region, which is painted at once or kept for later. -/
  | genericRegion (immediate : Bool)
  /-- A segment of a kind that cannot be decoded, which paints on the page or does not. -/
  | unsupported (paints : Bool)
  /-- A segment that has no effect on the page. -/
  | ignored
deriving DecidableEq

/-- The kind of segments of a type. -/
def SegmentKind.ofType? (type : Nat) : Option SegmentKind :=
  if type = 48 then some pageInformation
  else if type = 49 then some endOfPage
  else if type = 50 then some endOfStripe
  else if type = 51 then some endOfFile
  else if type = 36 then some (genericRegion false)
  else if type ∈ [38, 39] then some (genericRegion true)
  else if type ∈ [0, 4, 16, 20, 40] then some (unsupported false)
  else if type ∈ [6, 7, 22, 23, 42, 43] then some (unsupported true)
  else if type ∈ [52, 53, 54, 62] then some ignored
  else none

/-- The header of a segment. -/
structure SegmentHeader where
  number : Nat
  kind : SegmentKind
  /-- The numbers of the segments it refers to. -/
  references : List Nat
  /-- The number of the page it belongs to. -/
  page : Nat
  /-- The length of its data, unless that is unknown. -/
  length : Option Nat
deriving DecidableEq

/-- A segment. -/
structure Segment where
  header : SegmentHeader
  data : Bytes

namespace SegmentHeader

/-- The number of bytes of a reference in a segment with a number. -/
def referenceSize (number : Nat) : Nat :=
  if number ≤ 256 then 1 else if number ≤ 65536 then 2 else 4

/-- The next `count` references of a segment, all to earlier ones. -/
def readReferences (number : Nat) : Nat → Reader (List Nat)
  | 0 => pure []
  | count + 1 => do
    let target ← Reader.number (referenceSize number)
    if number ≤ target then throw .invalidReference
    let others ← readReferences number count
    pure (target :: others)

/-- How many references follow. Up to four fit into three bits; more are counted in a field of
their own, after which there is a bit for each of them and one more. -/
def readReferenceCount : Reader Nat := do
  let first ← Reader.number 1
  if first / 32 ≤ 4 then pure (first / 32)
  else if first / 32 = 7 then
    let rest ← Reader.number 3
    let count := (first % 32) <<< 24 + rest
    let _retained ← Reader.bytes ((count + 8) / 8)
    pure count
  else throw .invalidSegment

/-- The length of a segment's data. Only a region that is painted at once may leave it open. -/
def readLength (kind : SegmentKind) : Reader (Option Nat) := do
  let length ← Reader.number 4
  if length ≠ 0xFFFFFFFF then pure (some length)
  else if kind = .genericRegion true then pure none
  else throw .invalidSegment

/-- The header of the next segment. -/
def read : Reader SegmentHeader := do
  let number ← Reader.number 4
  let flags ← Reader.number 1
  match SegmentKind.ofType? (flags % 64) with
  | none => throw .invalidSegment
  | some kind =>
    let count ← readReferenceCount
    let references ← readReferences number count
    let page ← Reader.number (if flags / 64 % 2 = 1 then 4 else 1)
    let length ← readLength kind
    pure { number, kind, references, page, length }

end SegmentHeader

/-- The position of the first of two given bytes in a row that are followed by four more. -/
def markerPosition? (marker : UInt8 × UInt8) : Nat → Bytes → Option Nat
  | position, b :: c :: rest =>
    if (b, c) = marker ∧ 4 ≤ rest.length then some position
    else markerPosition? marker (position + 1) (c :: rest)
  | _, _ => none

/-- The length of the data of a region whose header does not state it. The marker depends on how
the region is coded and is looked for after the description of the region. -/
def openLength (data : Bytes) : Except Error Nat :=
  match data[17]? with
  | none => .error .unexpectedEnd
  | some flags =>
    let marker := if flags % 2 = 1 then (0x00, 0x00) else (0xFF, 0xAC)
    match markerPosition? marker 18 (data.drop 18) with
    | some position => .ok (position + 6)
    | none => .error .missingEndMarker

/-- The segment with a header whose data comes next. -/
def Segment.read (header : SegmentHeader) : Reader Segment := do
  let length ← match header.length with
    | some length => pure length
    | none => openLength (← get)
  let data ← Reader.bytes length
  pure ⟨header, data⟩

/-- The segments up to the end of the data or of the file, at most `fuel` of them. -/
def readSegments : Nat → Bytes → Except Error (List Segment)
  | 0, _ => .ok []
  | fuel + 1, data =>
    if data.isEmpty then .ok []
    else do
      let (header, data) ← SegmentHeader.read data
      let (segment, data) ← Segment.read header data
      if header.kind = .endOfFile then .ok [segment]
      else
        let others ← readSegments fuel data
        .ok (segment :: others)

/-- The segments of data in which each header is followed by its data. -/
def sequentialSegments (data : Bytes) : Except Error (List Segment) :=
  readSegments (data.length + 1) data

/-- The headers up to the end of the data or of the file, at most `fuel` of them, and the data
after them. -/
def readHeaders : Nat → Bytes → Except Error (List SegmentHeader × Bytes)
  | 0, data => .ok ([], data)
  | fuel + 1, data => do
    let (header, data) ← SegmentHeader.read data
    if header.length.isNone then throw .invalidSegment
    if header.kind = .endOfFile ∨ data.isEmpty then .ok ([header], data)
    else
      let (others, data) ← readHeaders fuel data
      .ok (header :: others, data)

/-- The segments with some headers, whose data comes in the same order. -/
def readBodies : List SegmentHeader → Bytes → Except Error (List Segment)
  | [], _ => .ok []
  | header :: headers, data => do
    let (segment, data) ← Segment.read header data
    let others ← readBodies headers data
    .ok (segment :: others)

/-- The segments of data in which all headers come first. -/
def randomAccessSegments (data : Bytes) : Except Error (List Segment) := do
  let (headers, data) ← readHeaders (data.length + 1) data
  readBodies headers data

/-- What a file begins with. -/
def fileMark : Bytes := [0x97, 0x4A, 0x42, 0x32, 0x0D, 0x0A, 0x1A, 0x0A]

/-- The segments of a file. -/
def fileSegments (data : Bytes) : Except Error (List Segment) := do
  let (mark, data) ← Reader.bytes 8 data
  if mark ≠ fileMark then throw .invalidHeader
  let (flags, data) ← Reader.number 1 data
  let (_, data) ← Reader.bytes (if flags / 2 % 2 = 0 then 4 else 0) data
  if flags % 2 = 1 then sequentialSegments data else randomAccessSegments data

end Folio.Bilevel
