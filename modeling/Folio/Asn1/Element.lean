import Folio.Asn1.Oid
import Folio.Asn1.Time
import Folio.Text.Utf16
import Folio.Text.Utf8

/-!
# Encoded elements

An element is a tag, a length and contents. A constructed element consists of other elements. Its
length may be indefinite: the contents are then elements up to two zero bytes. Bytes after an
element are ignored.
-/

namespace Folio.Asn1

/-- An encoded element. -/
structure Element where
  tag : UInt8
  /-- The whole encoding. -/
  raw : Bytes
  contents : Bytes
deriving DecidableEq

namespace Tag

/-- The tag of integers. -/
def integer : UInt8 := 0x02

/-- The tag of strings of bytes. -/
def octetString : UInt8 := 0x04

/-- The tag of strings of bytes that consist of others. -/
def octetStringParts : UInt8 := 0x24

/-- The tag of object identifiers. -/
def objectIdentifier : UInt8 := 0x06

/-- The tag of times with a year of two digits. -/
def shortTime : UInt8 := 0x17

/-- The tag of times with a year of four digits. -/
def longTime : UInt8 := 0x18

/-- The tag of sequences. -/
def sequence : UInt8 := 0x30

/-- The tag of sets. -/
def set : UInt8 := 0x31

/-- The tag of a constructed element whose meaning depends on its place. -/
def context (number : UInt8) : UInt8 := 0xA0 ||| number

end Tag

namespace Element

/-- Whether the element with a tag consists of other elements. -/
def isConstructedTag (tag : UInt8) : Bool := tag &&& 0x20 != 0

/-- Whether the element consists of other elements. -/
def isConstructed (e : Element) : Bool := isConstructedTag e.tag

/-- The data after the rest of a long tag, whose last byte is not marked. -/
def dropLongTag : Bytes → Except Error Bytes
  | [] => .error .unexpectedEnd
  | b :: rest => if b < 0x80 then .ok rest else dropLongTag rest

/-- A length, unless it is indefinite, and the data after it. -/
def readLength : Bytes → Except Error (Option Nat × Bytes)
  | [] => .error .unexpectedEnd
  | first :: rest =>
    if first < 0x80 then .ok (some first.toNat, rest)
    else if first = 0x80 then .ok (none, rest)
    else if first ≤ 0x84 then
      match Bytes.splitAt? rest (first.toNat - 0x80) with
      | some (digits, rest) => .ok (some (Bytes.toNatBE digits), rest)
      | none => .error .unexpectedEnd
    else .error .invalidLength

/-- The data from the mark on that ends an element of indefinite length, at most `fuel` elements
being read before it by `read`. -/
def findEnd (read : Bytes → Except Error (Element × Bytes)) : Nat → Bytes → Except Error Bytes
  | 0, _ => .error .unexpectedEnd
  | fuel + 1, data =>
    match data with
    | 0 :: 0 :: _ => .ok data
    | _ :: _ :: _ => do
      let (_, rest) ← read data
      findEnd read fuel rest
    | _ => .error .unexpectedEnd

/-- The part of some data before the given end of it. -/
def before (data rest : Bytes) : Bytes := data.take (data.length - rest.length)

/-- The element that the data starts with and the data after it, if fewer than `levels` elements of
indefinite length are nested in it. -/
def readNested : Nat → Bytes → Except Error (Element × Bytes)
  | 0, _ => .error .tooDeep
  | _, [] => .error .unexpectedEnd
  | levels + 1, tag :: data => do
    let body ← if tag &&& 0x1F = 0x1F then dropLongTag data else .ok data
    let (length, body) ← readLength body
    match length with
    | some length =>
      match Bytes.splitAt? body length with
      | some (contents, rest) => .ok (⟨tag, before (tag :: data) rest, contents⟩, rest)
      | none => .error .unexpectedEnd
    | none =>
      if !isConstructedTag tag then throw .invalidLength
      let mark ← findEnd (readNested levels) (body.length + 1) body
      let rest := mark.drop 2
      .ok (⟨tag, before (tag :: data) rest, before body mark⟩, rest)

/-- The number of elements of indefinite length that an element may be nested in. -/
def maxNesting : Nat := 64

/-- The element that the data starts with and the data after it. -/
def read (data : Bytes) : Except Error (Element × Bytes) := readNested (maxNesting + 1) data

/-- The element that the data starts with. -/
def parse (data : Bytes) : Except Error Element := (read data).map (·.1)

/-- The elements that some data consists of, at most `fuel` of them, and the error that ends their
list if there is one. -/
def readAll : Nat → Bytes → List Element × Option Error
  | 0, _ => ([], none)
  | fuel + 1, data =>
    if data.isEmpty then ([], none)
    else
      match read data with
      | .error e => ([], some e)
      | .ok (e, rest) =>
        let (others, error) := readAll fuel rest
        (e :: others, error)

/-- The elements that the contents consist of, and the error that ends their list. -/
def children (e : Element) : List Element × Option Error := readAll e.contents.length e.contents

/-- The elements that the contents consist of, if all can be read. -/
def childList (e : Element) : Except Error (List Element) :=
  match e.children with
  | (elements, none) => .ok elements
  | (_, some error) => .error error

/-- The first element of the contents, if there are any contents. -/
def firstChild? (e : Element) : Option (Except Error Element) :=
  if e.contents.isEmpty then none else some (parse e.contents)

/-- The element, if it has the given tag. -/
def expect (e : Element) (tag : UInt8) : Except Error Element :=
  if e.tag = tag then .ok e else .error (.unexpectedTag tag e.tag)

/-- The elements of a sequence. -/
def sequence (e : Element) : Except Error (List Element) := do
  (← e.expect Tag.sequence).childList

/-- The element inside one whose meaning depends on its place. -/
def explicit (e : Element) (number : UInt8) : Except Error Element := do
  parse (← e.expect (Tag.context number)).contents

/-- The bytes without leading zeros, of which the last one is kept. -/
def dropZeros : Bytes → Bytes
  | 0 :: b :: rest => dropZeros (b :: rest)
  | bytes => bytes

/-- The bytes of an integer without leading zeros. -/
def integer (e : Element) : Except Error Bytes := do
  let contents := (← e.expect Tag.integer).contents
  if contents.isEmpty then throw .invalidInteger
  pure (dropZeros contents)

/-- The value of an integer of at most 32 bits that is not negative. -/
def smallInteger (e : Element) : Except Error Nat := do
  let contents := (← e.expect Tag.integer).contents
  if contents.head?.any (0x80 ≤ ·) then throw .invalidInteger
  let bytes ← e.integer
  if 4 < bytes.length then throw .invalidInteger
  pure bytes.toNatBE

/-- The value of an object identifier. -/
def oid (e : Element) : Except Error Oid := do
  Oid.decode (← e.expect Tag.objectIdentifier).contents

/-- The bytes of a string of bytes, which may consist of others to any depth below `fuel`. -/
def octetsWithin : Nat → Element → Except Error Bytes
  | 0, _ => .error .unexpectedEnd
  | fuel + 1, e =>
    if e.tag = Tag.octetString then .ok e.contents
    else if e.tag = Tag.octetStringParts then do
      let (elements, error) := e.children
      let parts ← elements.mapM (octetsWithin fuel)
      match error with
      | some error => throw error
      | none => .ok parts.flatten
    else .error (.unexpectedTag Tag.octetString e.tag)

/-- The bytes of a string of bytes. -/
def octets (e : Element) : Except Error Bytes := octetsWithin (e.raw.length + 1) e

/-- The value of a time. -/
def time (e : Element) : Except Error Time :=
  if e.tag = Tag.shortTime then Time.parseShort e.contents
  else if e.tag = Tag.longTime then Time.parseLong e.contents
  else .error (.unexpectedTag Tag.shortTime e.tag)

/-- The value of a text, in one of four encodings. -/
def text? (e : Element) : Option String :=
  if e.tag = 0x0C then Text.Utf8.decode? e.contents
  else if e.tag ∈ [0x13, 0x14, 0x16] then some e.contents.toLatin1
  else if e.tag = 0x1E then (Text.Utf16.decode? (Text.Utf16.units e.contents)).map String.ofList
  else none

end Element

end Folio.Asn1
