import Folio.Object.Cast
import Folio.Syntax.Numeral

/-!
# The grammar of objects

Each reader takes the data that is left and gives back what it read and the data after that, or
nothing. Space and comments before an object are skipped. Content streams are read in a mode of
their own, in which there are neither references nor streams. `readObject?` reads objects that are
nested inside at most `maxNesting` containers.
-/

namespace Folio.Syntax

/-- What the meaning of an object's text depends on. -/
structure Mode where
  /-- The indirect object being read, which becomes the owner of its strings and streams. -/
  owner : Option Ref := none
  /-- Whether a content stream is being read. -/
  inContent : Bool := false

/-- The number of containers that an object may be nested in. -/
def maxNesting : Nat := 256

/-- The data after one or more white-space characters. -/
def dropBlanks? (data : Bytes) : Option Bytes :=
  match data with
  | b :: rest => if isWhiteSpace b then some (rest.dropWhile isWhiteSpace) else none
  | [] => none

/-- The word of regular characters that the data starts with, if there is one. -/
def keyword? (data : Bytes) : Option Bytes :=
  let word := data.takeWhile isRegular
  if word.isEmpty then none else some word

/-- Two integers and the letter `R`, white space between them, after which no word goes on. -/
def readReference? (data : Bytes) : Option (Ref × Bytes) := do
  let (number, data) ← readInteger? data
  let data ← dropBlanks? data
  let (generation, data) ← readInteger? data
  let data ← dropBlanks? data
  match data with
  | 82 :: rest =>
    if rest.head?.any isRegular then none
    else
      let target ← Ref.ofInts? number.toInt generation.toInt
      some (target, rest)
  | _ => none

/-- A name after its slash. -/
def readName? : Bytes → Option (Name × Bytes)
  | 47 :: rest => some (.ofEscaped (rest.takeWhile isRegular), rest.dropWhile isRegular)
  | _ => none

/-- The text of a literal string up to the parenthesis that closes it, `nesting` parentheses being
open within it, and the data after that. A backslash takes the next character with it. -/
def spanLiteral? : Nat → Bytes → Option (Bytes × Bytes)
  | _, [] => none
  | _, [92] => none
  | nesting, 92 :: b :: rest =>
    (spanLiteral? nesting rest).map fun (text, rest) => (92 :: b :: text, rest)
  | nesting, b :: rest =>
    if b = 40 then (spanLiteral? (nesting + 1) rest).map fun (text, rest) => (b :: text, rest)
    else if b = 41 then
      match nesting with
      | 0 => some ([], rest)
      | n + 1 => (spanLiteral? n rest).map fun (text, rest) => (b :: text, rest)
    else (spanLiteral? nesting rest).map fun (text, rest) => (b :: text, rest)

/-- Whether a character may stand between angle brackets. -/
def isHexText (b : UInt8) : Bool := isHexDigit b || isWhiteSpace b

/-- A string attributed to the owner that the mode knows. -/
def Mode.own (mode : Mode) (s : Str) : Str :=
  match mode.owner with
  | some owner => s.withOwner owner
  | none => s

/-- A hexadecimal string after its opening bracket. -/
def readHex? (mode : Mode) (data : Bytes) : Option (Str × Bytes) :=
  match data.dropWhile isHexText with
  | 62 :: rest => some (mode.own (.ofHex (data.takeWhile isHexText)), rest)
  | _ => none

/-- The data without one end-of-line marker at its end. -/
def dropFinalEndOfLine (data : Bytes) : Bytes :=
  match data.reverse with
  | 10 :: 13 :: rest => rest.reverse
  | b :: rest => if isEndOfLine b then rest.reverse else data
  | [] => []

/-- The data of a stream of a stated length, if the end of the stream is marked after it, and the
data after the mark. -/
def readSizedStreamData? (length : Nat) (data : Bytes) : Option (Bytes × Bytes) := do
  let (body, rest) ← data.splitAt? length
  let rest ← Bytes.dropTag? (.ofAscii "endstream") (skipSpace rest)
  some (body, rest)

/-- The data of a stream up to the next mark of an end, without the end of line before the mark,
and the data after it. -/
def findStreamData? (data : Bytes) : Option (Bytes × Bytes) :=
  (Bytes.cutAtTag? (.ofAscii "endstream") data).map fun (body, rest) =>
    (dropFinalEndOfLine body, rest)

/-- The data of a stream with the given dictionary. A length that is missing, a reference or wrong
is replaced by a search for the end. -/
def readStreamData? (d : Dict) (data : Bytes) : Option (Bytes × Bytes) :=
  ((d.getAs? Object.nat? "Length").bind fun length => readSizedStreamData? length data).or
    (findStreamData? data)

/-- A dictionary that has been read, or the stream whose data follows it. -/
def readAfterDict? (mode : Mode) (d : Dict) (data : Bytes) : Option (Object × Bytes) :=
  if mode.inContent then some (.dict d, data)
  else
    match Bytes.dropTag? (.ofAscii "stream") (skipSpace data) with
    | none => some (.dict d, data)
    | some rest =>
      (readStreamData? d (skipEndOfLine rest)).map fun (body, rest) =>
        (.stream ⟨d, body, mode.owner⟩, rest)

/-- A number or a reference. -/
def readNumeric? (mode : Mode) (data : Bytes) : Option (Object × Bytes) :=
  let reference := if mode.inContent then none else readReference? data
  match reference with
  | some (target, rest) => some (.ref target, rest)
  | none => (readNumber? data).map fun (n, rest) => (.number n, rest)

/-- The object that a word stands for. -/
def Object.ofKeyword? (word : Bytes) : Option Object :=
  if word = .ofAscii "true" then some (.bool true)
  else if word = .ofAscii "false" then some (.bool false)
  else if word = .ofAscii "null" then some .null
  else none

/-- The object of the word that the data starts with. -/
def readKeyword? (data : Bytes) : Option (Object × Bytes) := do
  let word ← keyword? data
  let o ← Object.ofKeyword? word
  some (o, data.drop word.length)

/-- Items read by `read` up to a closing bracket, at most `fuel` of them. -/
def readItems? (read : Bytes → Option (Object × Bytes)) :
    Nat → Bytes → Option (List Object × Bytes)
  | 0, _ => none
  | fuel + 1, data =>
    match skipSpace data with
    | 93 :: rest => some ([], rest)
    | data => do
      let (item, data) ← read data
      let (items, data) ← readItems? read fuel data
      some (item :: items, data)

/-- Pairs of a name and an object read by `read` up to two closing brackets, at most `fuel` of
them. A null object leaves its entry out, and of several entries with one name the last counts. -/
def readEntries? (read : Bytes → Option (Object × Bytes)) :
    Nat → Dict → Bytes → Option (Dict × Bytes)
  | 0, _, _ => none
  | fuel + 1, d, data =>
    match skipSpace data with
    | 62 :: 62 :: rest => some (d, rest)
    | data => do
      let (key, data) ← readName? data
      let (value, data) ← read data
      readEntries? read fuel (if value.isNull then d else d.insert key value) data

/-- The object that the data starts with and the data after it, if the object opens fewer than
`levels` containers inside each other. -/
def readNested? (mode : Mode) : Nat → Bytes → Option (Object × Bytes)
  | 0, _ => none
  | levels + 1, data =>
    match skipSpace data with
    | [] => none
    | b :: rest =>
      if b = 47 then (readName? (b :: rest)).map fun (n, rest) => (.name n, rest)
      else if b = 40 then
        (spanLiteral? 0 rest).map fun (text, rest) => (.str (mode.own (.ofEscaped text)), rest)
      else if b = 91 then
        (readItems? (readNested? mode levels) (rest.length + 1) rest).map fun (items, rest) =>
          (.array items, rest)
      else if b = 60 then
        match rest with
        | 60 :: rest =>
          (readEntries? (readNested? mode levels) (rest.length + 1) .empty rest).bind
            fun (d, rest) => readAfterDict? mode d rest
        | _ => (readHex? mode rest).map fun (s, rest) => (.str s, rest)
      else if b = 43 || b = 45 || b = 46 || isDigit b then readNumeric? mode (b :: rest)
      else readKeyword? (b :: rest)

/-- The object that the data starts with, after space, and the data after it. -/
def readObject? (mode : Mode) (data : Bytes) : Option (Object × Bytes) :=
  readNested? mode (maxNesting + 1) data

/-- The definition of an indirect object that the data starts with, after space, and the data after
it. The word that closes the definition may be missing. -/
def readIndirect? (data : Bytes) : Option ((Ref × Object) × Bytes) := do
  let (number, data) ← readInteger? (skipSpace data)
  let (generation, data) ← readInteger? (skipSpace data)
  let data ← Bytes.dropTag? (.ofAscii "obj") (skipSpace data)
  let target ← Ref.ofInts? number.toInt generation.toInt
  let (o, data) ← readObject? ⟨some target, false⟩ data
  let data := skipSpace data
  some ((target, o), (Bytes.dropTag? (.ofAscii "endobj") data).getD data)

/-- The object that some data starts with. -/
def parseObject? (data : Bytes) : Option Object := (readObject? {} data).map (·.1)

/-- The indirect object whose definition some data starts with. -/
def parseIndirect? (data : Bytes) : Option (Ref × Object) := (readIndirect? data).map (·.1)

end Folio.Syntax
