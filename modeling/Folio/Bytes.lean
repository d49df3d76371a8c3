/-!
# Byte strings

The data of a document is a list of bytes. This module holds the readings of such lists that the
other modules share: big-endian and little-endian numbers, hexadecimal text, and cutting a list
into blocks of one length.
-/

namespace Folio

/-- A byte string. -/
abbrev Bytes := List UInt8

namespace Bytes

/-- The bytes of a text of ASCII characters. -/
def ofAscii (s : String) : Bytes := s.toList.map fun c => c.toNat.toUInt8

/-- The value of the bytes as a big-endian number. -/
def toNatBE (bytes : Bytes) : Nat := bytes.foldl (fun n b => n * 256 + b.toNat) 0

/-- The value of the bytes as a little-endian number. -/
def toNatLE : Bytes → Nat
  | [] => 0
  | b :: rest => b.toNat + 256 * toNatLE rest

/-- The last `count` base-256 digits of `n`, highest first. -/
def ofNatBE : Nat → Nat → Bytes
  | 0, _ => []
  | count + 1, n => ofNatBE count (n / 256) ++ [n.toUInt8]

/-- The last `count` base-256 digits of `n`, lowest first. -/
def ofNatLE : Nat → Nat → Bytes
  | 0, _ => []
  | count + 1, n => n.toUInt8 :: ofNatLE count (n / 256)

/-- The part from `start` up to `stop`, if both lie inside the data and are in order. -/
def slice? (data : Bytes) (start stop : Nat) : Option Bytes :=
  if start ≤ stop ∧ stop ≤ data.length then some ((data.drop start).take (stop - start)) else none

/-- The first `count` bytes and the rest, if there are that many. -/
def splitAt? (data : Bytes) (count : Nat) : Option (Bytes × Bytes) :=
  if count ≤ data.length then some (data.splitAt count) else none

/-- The rest of the data after `tag`, if the data starts with it. -/
def dropTag? : Bytes → Bytes → Option Bytes
  | [], data => some data
  | _ :: _, [] => none
  | t :: tag, b :: data => if t = b then dropTag? tag data else none

/-- The data before the first occurrence of `tag` and the data after it. -/
def cutAtTag? (tag : Bytes) : Bytes → Option (Bytes × Bytes)
  | [] => (dropTag? tag []).map fun rest => ([], rest)
  | b :: data =>
    match dropTag? tag (b :: data) with
    | some rest => some ([], rest)
    | none => (cutAtTag? tag data).map fun (before, rest) => (b :: before, rest)

/-- The blocks of `size` bytes that the data consists of; a shorter remainder is the last block. -/
def blocks (size : Nat) (data : Bytes) : List Bytes :=
  go data.length data
where
  /-- Cuts off at most `fuel` blocks. -/
  go : Nat → Bytes → List Bytes
    | 0, _ => []
    | fuel + 1, data =>
      if data.isEmpty then [] else data.take size :: go fuel (data.drop size)

/-- The complete blocks of `size` bytes; a shorter remainder is dropped. -/
def exactBlocks (size : Nat) (data : Bytes) : List Bytes :=
  (data.blocks size).filter (·.length = size)

/-- The value of a hexadecimal digit of either case. -/
def hexValue? (b : UInt8) : Option UInt8 :=
  if 48 ≤ b ∧ b ≤ 57 then some (b - 48)
  else if 65 ≤ b ∧ b ≤ 70 then some (b - 55)
  else if 97 ≤ b ∧ b ≤ 102 then some (b - 87)
  else none

/-- The upper-case hexadecimal digit of a value below 16. -/
def hexDigit (value : UInt8) : UInt8 := if value < 10 then 48 + value else 55 + value

/-- The bytes as upper-case hexadecimal digits, two for each. -/
def toHex (bytes : Bytes) : Bytes := bytes.flatMap fun b => [hexDigit (b / 16), hexDigit (b % 16)]

/-- The bytes that pairs of hexadecimal digits stand for; a digit without a partner is dropped. -/
def ofHexPairs : Bytes → Bytes
  | high :: low :: rest =>
    ((hexValue? high).getD 0 * 16 + (hexValue? low).getD 0) :: ofHexPairs rest
  | _ => []

/-- The text in which every byte is the character of its number. -/
def toLatin1 (bytes : Bytes) : String := String.ofList (bytes.map fun b => Char.ofNat b.toNat)

end Bytes

end Folio
