import Folio.Syntax.Character

/-!
# Cursors

A cursor is a position in some data. The position may be moved anywhere, also past the end, where
nothing can be read. An operation that cannot be carried out leaves the cursor where it is.
-/

namespace Folio.Syntax

/-- A position in byte data. -/
structure Cursor where
  data : Bytes
  offset : Nat := 0

namespace Cursor

/-- Whether nothing is left to read. -/
def atEnd (c : Cursor) : Bool := c.data.length ≤ c.offset

/-- The unread part of the data, unless the position lies past the end. -/
def tail? (c : Cursor) : Option Bytes :=
  if c.offset ≤ c.data.length then some (c.data.drop c.offset) else none

/-- The unread part of the data, empty past the end. -/
def rest (c : Cursor) : Bytes := c.data.drop c.offset

/-- The cursor at another position. -/
def jump (c : Cursor) (offset : Nat) : Cursor := { c with offset }

/-- The cursor at the start of `rest`, an end of the unread part. -/
def seek (c : Cursor) (rest : Bytes) : Cursor :=
  { c with offset := c.offset + (c.rest.length - rest.length) }

/-- The next `count` bytes. -/
def peek? (c : Cursor) (count : Nat) : Option Bytes := c.data.slice? c.offset (c.offset + count)

/-- The next byte. -/
def peekByte? (c : Cursor) : Option UInt8 := c.rest.head?

/-- The next `count` bytes and the cursor after them. -/
def read? (c : Cursor) (count : Nat) : Option (Bytes × Cursor) :=
  (c.peek? count).map fun bytes => (bytes, c.jump (c.offset + count))

/-- The next byte and the cursor after it. -/
def readByte? (c : Cursor) : Option (UInt8 × Cursor) :=
  c.peekByte?.map fun b => (b, c.jump (c.offset + 1))

/-- The cursor after `tag`, if the data goes on with it. -/
def dropTag? (c : Cursor) (tag : Bytes) : Option Cursor :=
  if c.peek? tag.length = some tag then some (c.jump (c.offset + tag.length)) else none

/-- The cursor after the next byte, if that is in the class `p`. -/
def dropIf? (c : Cursor) (p : UInt8 → Bool) : Option Cursor :=
  match c.peekByte? with
  | some b => if p b then some (c.jump (c.offset + 1)) else none
  | none => none

/-- The cursor after all next bytes of the class `p`. -/
def dropWhile (c : Cursor) (p : UInt8 → Bool) : Cursor := c.seek (c.rest.dropWhile p)

/-- The cursor after white space and comments. -/
def skipSpace (c : Cursor) : Cursor := c.seek (Syntax.skipSpace c.rest)

/-- The cursor after one end-of-line marker. -/
def skipEndOfLine (c : Cursor) : Cursor := c.seek (Syntax.skipEndOfLine c.rest)

end Cursor

end Folio.Syntax
