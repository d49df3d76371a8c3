import Folio.Bytes

/-!
# Markers of photographic images

A compressed photograph is a sequence of segments that begin with markers. Before it is decoded, its
first segments are searched for what says how its components are to be understood.
-/

namespace Folio.Jpeg

/-- What the markers say about the components. -/
structure Markings where
  /-- The transform that an application marker states. -/
  transform : Option UInt8 := none
  /-- The identifiers of the components. -/
  componentIds : Option Bytes := none
deriving DecidableEq

/-- Whether a marker begins a frame. -/
def isFrameMarker (marker : UInt8) : Bool :=
  0xC0 ≤ marker && marker ≤ 0xCF && marker != 0xC4 && marker != 0xC8 && marker != 0xCC

/-- Whether the search ends at a marker, because no segment follows it or coded data does. -/
def isFinalMarker (marker : UInt8) : Bool :=
  (0xD0 ≤ marker && marker ≤ 0xD7) || marker == 0x01 || marker == 0xDA

/-- The transform that the segment of an application marker states. -/
def transformOf? (segment : Bytes) : Option UInt8 :=
  if 12 ≤ segment.length ∧ segment.take 5 = Bytes.ofAscii "Adobe" then segment[11]? else none

/-- The identifiers of the components of a frame, whose marker `data` begins with. Those beyond the
end of the data are left out. -/
def frameIds? (data : Bytes) : Option Bytes :=
  (data[9]?).map fun count => (List.range count.toNat).filterMap fun i => data[10 + 3 * i]?

/-- The markings with those of the segment that `data` begins with, and what states its length. -/
def Markings.addSegment (m : Markings) (marker : UInt8) (length : Nat) (data : Bytes) : Markings :=
  if marker = 0xEE then
    { m with transform := ((data.slice? 4 (2 + length)).bind transformOf?).or m.transform }
  else if isFrameMarker marker then { m with componentIds := (frameIds? data).or m.componentIds }
  else m

/-- The markings in the segments of some data, at most `fuel` of them, added to those so far. The
search fails where no marker is found. -/
def searchSegments? : Nat → Markings → Bytes → Option Markings
  | fuel + 1, m, 0xFF :: marker :: high :: low :: rest =>
    let data := 0xFF :: marker :: high :: low :: rest
    if marker = 0xFF then searchSegments? fuel m (data.drop 1)
    else if isFinalMarker marker then some m
    else
      let length := Bytes.toNatBE [high, low]
      searchSegments? fuel (m.addSegment marker length data) (data.drop (2 + length))
  | _ + 1, _, _ :: _ :: _ :: _ :: _ => none
  | _, m, _ => some m

/-- The markings of a photograph, if it has a frame. -/
def findMarkings? (data : Bytes) : Option Markings :=
  match data with
  | 0xFF :: 0xD8 :: rest =>
    if data.length < 4 then none
    else (searchSegments? data.length {} rest).filter (·.componentIds.isSome)
  | _ => none

/-- How the components of a photograph are to be understood. -/
inductive Encoding where
  | gray
  | rgb
  /-- A luminance and two differences of colors. -/
  | ycc
  | cmyk
  /-- A luminance, two differences of colors, and black. -/
  | ycck
deriving DecidableEq

namespace Encoding

/-- The number of components. -/
def components : Encoding → Nat
  | gray => 1
  | rgb | ycc => 3
  | cmyk | ycck => 4

/-- The encoding that markings state, where a parameter of the stream may state a transform. -/
def ofMarkings (m : Markings) (parameter : Option UInt8) : Encoding :=
  let ids := m.componentIds.getD []
  match ids.length with
  | 1 => gray
  | 3 =>
    match m.transform with
    | some transform => if transform = 0 then rgb else ycc
    | none => if ids = Bytes.ofAscii "RGB" ∨ parameter = some 0 then rgb else ycc
  | 4 => if m.transform = some 2 then ycck else cmyk
  | _ => ycc

/-- The encoding of so many components without markings. -/
def ofComponents : Nat → Encoding
  | 1 => gray
  | 4 => cmyk
  | _ => ycc

end Encoding

end Folio.Jpeg
