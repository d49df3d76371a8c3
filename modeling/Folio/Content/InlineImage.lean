import Folio.Store.Stream
import Folio.Syntax.Grammar

/-!
# Inline images

An inline image in a content stream is a list of dictionary entries up to the word `ID`, one white
space, and data up to the word `EI`. The entries may be abbreviated. The data has the length that
the entries state, or goes on to the first `EI` at which its filters can be undone.
-/

namespace Folio.Content

open Syntax

/-- The full form of an abbreviated key. -/
def fullKey (key : Name) : Name :=
  if key = "BPC" then "BitsPerComponent"
  else if key = "CS" then "ColorSpace"
  else if key = "D" then "Decode"
  else if key = "DP" then "DecodeParms"
  else if key = "F" then "Filter"
  else if key = "H" then "Height"
  else if key = "IM" then "ImageMask"
  else if key = "I" then "Interpolate"
  else if key = "L" then "Length"
  else if key = "W" then "Width"
  else key

/-- The full form of an abbreviated color space. -/
def fullColorSpace (n : Name) : Name :=
  if n = "G" then "DeviceGray"
  else if n = "RGB" then "DeviceRGB"
  else if n = "CMYK" then "DeviceCMYK"
  else if n = "I" then "Indexed"
  else n

/-- An object with its name written in full, if it is one. -/
def fullColorSpaceObject : Object → Object
  | .name n => .name (fullColorSpace n)
  | o => o

/-- The value of an entry with the color spaces in it written in full. -/
def fullValue (key : Name) (value : Object) : Object :=
  if key = "CS" ∨ key = "ColorSpace" then
    match value with
    | .array items => .array (items.map fullColorSpaceObject)
    | o => fullColorSpaceObject o
  else value

/-- The mode in which content streams are read. -/
def contentMode : Mode := { inContent := true }

/-- The entries up to the word `ID`, at most `fuel` of them, and the data after that word. -/
def readImageEntries? : Nat → Dict → Bytes → Option (Dict × Bytes)
  | 0, _, _ => none
  | fuel + 1, d, data =>
    let data := skipSpace data
    if keyword? data = some (.ofAscii "ID") then some (d, data.drop 2)
    else
      match readObject? contentMode data with
      | some (.name key, data) => do
        let (value, data) ← readObject? contentMode data
        readImageEntries? fuel (d.insert (fullKey key) (fullValue key value)) data
      | _ => none

/-- An image whose entries state the length of its data, if the end is marked after it. -/
def readSizedImage? (d : Dict) (data : Bytes) : Option (Stream × Bytes) := do
  let length ← d.getAs? Object.nat? "Length"
  let (body, rest) ← data.splitAt? length
  let rest ← Bytes.dropTag? (.ofAscii "EI") (skipSpace rest)
  some (.ofData d body, rest)

/-- The bytes before an end mark, given in reverse, without one white space at their end. -/
def imageData : Bytes → Bytes
  | [] => []
  | b :: before => if isWhiteSpace b then before.reverse else (b :: before).reverse

/-- The image that ends at the first mark between white space at which its filters can be undone.
The bytes already passed are given in reverse. -/
def findImage? (d : Dict) : Bytes → Bytes → Option (Stream × Bytes)
  | _, [] => none
  | before, b :: rest =>
    let image := Stream.ofData d (imageData before)
    match Bytes.dropTag? (.ofAscii "EI") (b :: rest) with
    | some after =>
      if before.head?.all isWhiteSpace && after.head?.all isWhiteSpace &&
          (image.decode .empty).isOk then
        some (image, after)
      else findImage? d (b :: before) rest
    | none => findImage? d (b :: before) rest

/-- The inline image after the word that begins it. -/
def readInlineImage? (data : Bytes) : Option (Stream × Bytes) := do
  let (d, data) ← readImageEntries? (data.length + 1) .empty data
  let data := if data.head?.any isWhiteSpace then data.drop 1 else data
  (readSizedImage? d data).or (findImage? d [] data)

end Folio.Content
