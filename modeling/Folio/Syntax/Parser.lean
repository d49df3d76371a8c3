import Folio.Syntax.Cursor
import Folio.Syntax.Grammar

/-!
# Parsers

A parser reads objects at a position in some data and moves on to what comes after them. A step that fails may leave
the position anywhere, so where an object cannot be read, the parser goes back to where it began. What it reads is
what the grammar says.
-/

namespace Folio.Syntax

/-- The state of a parser. -/
structure Parser extends Mode where
  cursor : Cursor
  /-- The number of containers that are open. -/
  depth : Nat := 0

/-- A step of a parser. What a step has changed before it fails stays changed. -/
abbrev Parse := OptionT (StateM Parser)

namespace Parse

variable {α : Type}

/-! ## Moving the cursor -/

/-- Takes something off the cursor. -/
def take? (read : Cursor → Option (α × Cursor)) : Parse α := fun p =>
  match read p.cursor with
  | some (a, cursor) => (some a, { p with cursor })
  | none => (none, p)

/-- Moves the cursor, if that is possible. -/
def move? (step : Cursor → Option Cursor) : Parse Unit := take? fun c => (step c).map ((), ·)

/-- Moves the cursor. -/
def move (step : Cursor → Cursor) : Parse Unit := take? fun c => some ((), step c)

/-- What is seen at the cursor, which stays where it is. -/
def see? (look : Cursor → Option α) : Parse α := take? fun c => (look c).map (·, c)

/-- The current position. -/
def offset : Parse Nat := see? fun c => some c.offset

/-- The number of bytes left. -/
def remaining : Parse Nat := see? fun c => some c.rest.length

/-- The text from an earlier position up to the current one. -/
def textFrom (start : Nat) : Parse Bytes := see? fun c => c.data.slice? start c.offset

/-- Moves over a tag. -/
def tag (bytes : Bytes) : Parse Unit := move? (·.dropTag? bytes)

/-- Moves over all bytes of a class, of which there must be one. -/
def someOf (p : UInt8 → Bool) : Parse Unit := do
  let start ← offset
  move (·.dropWhile p)
  if start < (← offset) then pure () else failure

/-- Carries out a step and says whether it succeeded. -/
def succeeds (m : Parse α) : Parse Bool := fun p =>
  let (result, p) := m p
  (some result.isSome, p)

/-- Goes back to where a step began, if the step fails. -/
def restoring (m : Parse α) : Parse α := fun p =>
  match m p with
  | (some a, q) => (some a, q)
  | (none, q) => (none, { q with cursor := q.cursor.jump p.cursor.offset })

/-- Carries out a step inside of one more container. -/
def nested (m : Parse α) : Parse α := fun p =>
  let (result, q) := m { p with depth := p.depth + 1 }
  (result, { q with depth := q.depth - 1 })

/-- Carries out a step for an owner, of which nothing is known afterwards. -/
def owning (owner : Ref) (m : Parse α) : Parse α := fun p =>
  let (result, q) := m { p with owner := some owner }
  (result, { q with owner := none })

/-! ## Numbers and references -/

/-- A plus or a minus. -/
def isSign (b : UInt8) : Bool := b == 43 || b == 45

/-- Moves over the digits of a numeral and its point and says whether there are digits, at most `fuel` bytes. -/
def scanNumeral : Nat → Bool → Bool → Parse Bool
  | 0, _, hasDigits => pure hasDigits
  | fuel + 1, isReal, hasDigits => do
    match ← see? (some ·.peekByte?) with
    | none => pure hasDigits
    | some b =>
      if isDigit b then
        move fun c => c.jump (c.offset + 1)
        scanNumeral fuel isReal true
      else if b = 46 ∧ isReal = false then
        move fun c => c.jump (c.offset + 1)
        scanNumeral fuel true hasDigits
      else pure hasDigits

/-- The number at the position. -/
def readNumber : Parse Number := do
  let start ← offset
  let _ ← succeeds (move? (·.dropIf? isSign))
  if ← scanNumeral (← remaining) false false then
    let text ← textFrom start
    see? fun _ => (readNumber? text).map (·.1)
  else
    move (·.jump start)
    failure

/-- The integer at the position. -/
def readInteger : Parse Int64 := do
  match ← readNumber with
  | .integer i => pure i
  | .real _ => failure

/-- The reference at the position. -/
def readReference : Parse Ref :=
  restoring do
    let number ← readInteger
    someOf isWhiteSpace
    let generation ← readInteger
    someOf isWhiteSpace
    tag [82]
    if (← see? (some ·.peekByte?)).any isRegular then failure
    else see? fun _ => Ref.ofInts? number.toInt generation.toInt

/-! ## Names, strings and words -/

/-- The name at the position. -/
def readName : Parse Name := do
  tag [47]
  let start ← offset
  move (·.dropWhile isRegular)
  let text ← textFrom start
  pure (.ofEscaped text)

/-- The string attributed to the owner. -/
def owned (s : Str) : Parse Str := do
  let p ← get
  pure (p.toMode.own s)

/-- Moves over the parenthesis that closes a literal string, `nesting` parentheses being open within it, at most
`fuel` bytes. -/
def scanLiteral : Nat → Nat → Parse Unit
  | 0, _ => failure
  | fuel + 1, nesting => do
    let b ← take? (·.readByte?)
    if b = 92 then
      let _ ← take? (·.readByte?)
      scanLiteral fuel nesting
    else if b = 40 then scanLiteral fuel (nesting + 1)
    else if b = 41 then
      match nesting with
      | 0 => pure ()
      | nesting + 1 => scanLiteral fuel nesting
    else scanLiteral fuel nesting

/-- The literal string at the position. -/
def readLiteral : Parse Str := do
  tag [40]
  let start ← offset
  scanLiteral ((← remaining) + 1) 0
  let raw ← see? fun c => c.data.slice? start (c.offset - 1)
  owned (.ofEscaped raw)

/-- The hexadecimal string at the position. -/
def readHex : Parse Str := do
  tag [60]
  let start ← offset
  move (·.dropWhile isHexText)
  let raw ← textFrom start
  tag [62]
  owned (.ofHex raw)

/-- The object of the word at the position. -/
def readKeyword : Parse Object := do
  let word ← see? fun c => keyword? c.rest
  let o ← see? fun _ => Object.ofKeyword? word
  let _ ← take? (·.read? word.length)
  pure o

/-! ## Containers -/

/-- Items up to a closing bracket, at most `fuel` of them. -/
def readItems (read : Parse Object) : Nat → Parse (List Object)
  | 0 => failure
  | fuel + 1 => do
    move (·.skipSpace)
    if ← succeeds (tag [93]) then pure []
    else
      let item ← read
      let items ← readItems read fuel
      pure (item :: items)

/-- The array at the position. -/
def readArray (read : Parse Object) : Parse Object := do
  tag [91]
  let items ← readItems read ((← remaining) + 1)
  pure (.array items)

/-- Entries up to two closing brackets, at most `fuel` of them. -/
def readEntries (read : Parse Object) : Nat → Dict → Parse Dict
  | 0, _ => failure
  | fuel + 1, d => do
    move (·.skipSpace)
    if ← succeeds (tag [62, 62]) then pure d
    else
      let key ← readName
      let value ← read
      readEntries read fuel (if value.isNull then d else d.insert key value)

/-- The dictionary at the position. -/
def readDict (read : Parse Object) : Parse Dict := do
  tag [60, 60]
  readEntries read ((← remaining) + 1) .empty

/-- Data of the stated length from a position on, if the end of the stream is marked after it, and the position after
the mark. -/
def sizedStreamData? (start length : Nat) (c : Cursor) : Option (Bytes × Cursor) := do
  let data ← c.data.slice? start (start + length)
  let after ← (c.jump (start + length)).skipSpace.dropTag? (.ofAscii "endstream")
  some (data, after)

/-- Data from a position on up to the next mark of an end, and the position after the mark. -/
def foundStreamData? (start : Nat) (c : Cursor) : Option (Bytes × Cursor) := do
  let tail ← c.tail?
  let (data, _) ← Bytes.cutAtTag? (.ofAscii "endstream") tail
  some (dropFinalEndOfLine data, c.jump (start + data.length + 9))

/-- The data of a stream with the given dictionary from a position on. -/
def readStreamData (d : Dict) (start : Nat) : Parse Bytes :=
  match d.getAs? Object.nat? "Length" with
  | some length => take? (sizedStreamData? start length) <|> take? (foundStreamData? start)
  | none => take? (foundStreamData? start)

/-- A dictionary that has been read, or the stream whose data follows it. -/
def readStream (d : Dict) : Parse Object := do
  let before ← offset
  move (·.skipSpace)
  if ← succeeds (tag (.ofAscii "stream")) then
    move (·.skipEndOfLine)
    let start ← offset
    let data ← readStreamData d start
    let p ← get
    pure (.stream ⟨d, data, p.owner⟩)
  else
    move (·.jump before)
    pure (.dict d)

/-! ## Objects -/

/-- The dictionary or stream at the position if there are two angle brackets, else the hexadecimal string. -/
def readAngle (read : Parse Object) : Parse Object := do
  if ← succeeds (see? (·.dropTag? [60, 60])) then
    let d ← nested (readDict read)
    if (← get).inContent then pure (.dict d) else readStream d
  else Object.str <$> readHex

/-- The number at the position, or outside of a content stream the reference. -/
def readNumeric : Parse Object := do
  if (← get).inContent then Object.number <$> readNumber
  else Object.ref <$> readReference <|> Object.number <$> readNumber

/-- The object at the position, where at most `fuel` objects are nested inside each other. -/
def readNested : Nat → Parse Object
  | 0 => failure
  | fuel + 1 =>
    restoring do
      if maxNesting < (← get).depth then failure
      move (·.skipSpace)
      let b ← see? (·.peekByte?)
      if b = 47 then Object.name <$> readName
      else if b = 40 then Object.str <$> readLiteral
      else if b = 91 then nested (readArray (readNested fuel))
      else if b = 60 then readAngle (readNested fuel)
      else if b = 43 || b = 45 || b = 46 || isDigit b then readNumeric
      else readKeyword

/-- The object at the position. Deeper than `maxNesting` there is none, so the fuel is always enough. -/
def readObject : Parse Object := readNested (maxNesting + 2)

/-- The definition of an indirect object at the position. -/
def readIndirect : Parse (Ref × Object) :=
  restoring do
    move (·.skipSpace)
    let number ← readInteger
    move (·.skipSpace)
    let generation ← readInteger
    move (·.skipSpace)
    tag (.ofAscii "obj")
    let target ← see? fun _ => Ref.ofInts? number.toInt generation.toInt
    let o ← owning target readObject
    move (·.skipSpace)
    let _ ← succeeds (tag (.ofAscii "endobj"))
    pure (target, o)

end Parse

end Folio.Syntax
