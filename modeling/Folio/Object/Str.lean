import Folio.Object.Reference
import Folio.Syntax.Character
import Folio.Text.Utf16

/-!
# String objects

A string is written as hexadecimal digits or as a literal with escapes. It may know the indirect
object that contains it, its owner, from which the key of an encrypted string is derived.

Text is UTF-16 after the byte order mark `FE FF` and one character per byte otherwise. The digits
of a hexadecimal string are padded before they are read as text: with one digit to whole bytes and,
beyond one byte, with a zero byte to whole 16-bit units.
-/

namespace Folio

/-- The text of string data. -/
def decodeText : Bytes → String
  | 0xFE :: 0xFF :: rest => Text.Utf16.decodeBytes rest
  | bytes => bytes.toLatin1

namespace Str

/-- How a string is stored. -/
inductive Body where
  /-- Hexadecimal digits. -/
  | hex (digits : Bytes)
  /-- The bytes of a literal, its escapes resolved. -/
  | literal (bytes : Bytes)
deriving DecidableEq

end Str

/-- A string object. -/
structure Str where
  body : Str.Body
  /-- The indirect object that contains the string. -/
  owner : Option Ref := none
deriving DecidableEq

namespace Str

open Syntax

/-- The value of up to three octal digits and the data after them. -/
def readOctal (first : UInt8) : Bytes → Nat × Bytes
  | b :: c :: rest =>
    let value := (first - 48).toNat
    if isOctalDigit b then
      if isOctalDigit c then ((value * 8 + (b - 48).toNat) * 8 + (c - 48).toNat, rest)
      else (value * 8 + (b - 48).toNat, c :: rest)
    else (value, b :: c :: rest)
  | [b] =>
    if isOctalDigit b then ((first - 48).toNat * 8 + (b - 48).toNat, [])
    else ((first - 48).toNat, [b])
  | [] => ((first - 48).toNat, [])

/-- The byte that a backslash and a letter stand for. -/
def escapedByte (b : UInt8) : UInt8 :=
  if b = 110 then 10
  else if b = 114 then 13
  else if b = 116 then 9
  else if b = 98 then 8
  else if b = 102 then 12
  else b

/-- The bytes of a literal without its escapes. A backslash before an end of line removes it, an
end of line without one is a single line feed, and the value of an octal escape is cut to a byte. -/
def unescape (raw : Bytes) : Bytes :=
  go raw.length raw
where
  /-- Reads at most `fuel` characters. -/
  go : Nat → Bytes → Bytes
    | 0, _ => []
    | _, [] => []
    | fuel + 1, 92 :: rest =>
      match rest with
      | [] => []
      | b :: rest =>
        if isOctalDigit b then
          let (value, rest) := readOctal b rest
          value.toUInt8 :: go fuel rest
        else if b = 13 then go fuel ((Bytes.dropTag? [10] rest).getD rest)
        else if b = 10 then go fuel rest
        else escapedByte b :: go fuel rest
    | fuel + 1, 13 :: rest => 10 :: go fuel ((Bytes.dropTag? [10] rest).getD rest)
    | fuel + 1, b :: rest => b :: go fuel rest

/-- The string of the text between angle brackets; what is no digit is dropped. -/
def ofHex (raw : Bytes) : Str := ⟨.hex (raw.filter isHexDigit), none⟩

/-- The string that stores `bytes` as hexadecimal digits. -/
def ofHexBytes (bytes : Bytes) : Str := ⟨.hex bytes.toHex, none⟩

/-- The literal string of `bytes`. -/
def ofBytes (bytes : Bytes) : Str := ⟨.literal bytes, none⟩

/-- The string of the text between parentheses. -/
def ofEscaped (raw : Bytes) : Str := ofBytes (unescape raw)

/-- Digits padded to whole bytes. -/
def padToByte (digits : Bytes) : Bytes := if digits.length % 2 = 0 then digits else digits ++ [48]

/-- Digits padded to whole bytes and, beyond one byte, to whole 16-bit units. -/
def padToUnit (digits : Bytes) : Bytes :=
  let padded := padToByte digits
  if 2 < padded.length ∧ padded.length % 4 ≠ 0 then padded ++ [48, 48] else padded

/-- The data of the string. -/
def bytes (s : Str) : Bytes :=
  match s.body with
  | .hex digits => Bytes.ofHexPairs (padToByte digits)
  | .literal bytes => bytes

/-- The data of the string as hexadecimal digits; those of a hexadecimal string keep their case and
are padded to 16-bit units. -/
def hexText (s : Str) : String :=
  match s.body with
  | .hex digits => (padToUnit digits).toLatin1
  | .literal bytes => bytes.toHex.toLatin1

/-- The text of the string, without decryption. -/
def text (s : Str) : String :=
  match s.body with
  | .hex digits => decodeText (Bytes.ofHexPairs (padToUnit digits))
  | .literal bytes => decodeText bytes

/-- Part of the string as an unsigned 32-bit number: `length` digits of a hexadecimal string, at
most eight, or `length` bytes of a literal, of which the last four count. Zero outside the data. -/
def unsigned (s : Str) (start length : Nat) : UInt32 :=
  match s.body with
  | .hex digits =>
    match (padToUnit digits).slice? start (start + length) with
    | some part =>
      if length > 8 then 0
      else part.foldl (fun n d => n * 16 + ((Bytes.hexValue? d).getD 0).toUInt32) 0
    | none => 0
  | .literal bytes =>
    match bytes.slice? start (start + length) with
    | some part => part.foldl (fun n b => n * 256 + b.toUInt32) 0
    | none => 0

/-- The string attributed to an owner. -/
def withOwner (s : Str) (owner : Ref) : Str := { s with owner := some owner }

end Str

end Folio
