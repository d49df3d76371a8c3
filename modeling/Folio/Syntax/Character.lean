import Folio.Bytes

/-!
# Character classes

Every byte of a document is white space, a delimiter or a regular character.
-/

namespace Folio.Syntax

/-- NUL, tab, line feed, form feed, carriage return and space. -/
def isWhiteSpace (b : UInt8) : Bool :=
  b == 0 || b == 9 || b == 10 || b == 12 || b == 13 || b == 32

/-- The brackets of all kinds, the slash and the percent sign. -/
def isDelimiter (b : UInt8) : Bool :=
  b == 40 || b == 41 || b == 60 || b == 62 || b == 91 || b == 93 || b == 123 || b == 125 ||
    b == 47 || b == 37

/-- Neither white space nor a delimiter. -/
def isRegular (b : UInt8) : Bool := !isWhiteSpace b && !isDelimiter b

/-- Line feed and carriage return. -/
def isEndOfLine (b : UInt8) : Bool := b == 10 || b == 13

/-- A decimal digit. -/
def isDigit (b : UInt8) : Bool := 48 ≤ b && b ≤ 57

/-- A hexadecimal digit of either case. -/
def isHexDigit (b : UInt8) : Bool := (Bytes.hexValue? b).isSome

/-- An octal digit. -/
def isOctalDigit (b : UInt8) : Bool := 48 ≤ b && b ≤ 55

mutual

/-- The data after leading white space and comments. -/
def skipSpace : Bytes → Bytes
  | [] => []
  | b :: rest =>
    if isWhiteSpace b then skipSpace rest else if b = 37 then skipComment rest else b :: rest

/-- The data after the rest of a comment, which ends before the end of its line, and after the
space that follows. -/
def skipComment : Bytes → Bytes
  | [] => []
  | b :: rest => if isEndOfLine b then skipSpace rest else skipComment rest

end

/-- The data after one end-of-line marker, if it starts with one. -/
def skipEndOfLine : Bytes → Bytes
  | 13 :: 10 :: rest => rest
  | b :: rest => if isEndOfLine b then rest else b :: rest
  | [] => []

end Folio.Syntax
