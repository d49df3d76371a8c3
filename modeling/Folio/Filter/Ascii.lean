import Folio.Syntax.Grammar

/-!
# ASCII filters

Two encodings of bytes as printable characters. White space is ignored in both.
-/

namespace Folio.Filter

open Syntax

namespace AsciiHex

/-- The bytes that the hexadecimal digits before a closing bracket stand for; a missing last digit
is zero. Anything else than digits and white space is refused. -/
def decode? (data : Bytes) : Option Bytes :=
  let text := data.takeWhile (· ≠ 62)
  if text.all isHexText then some (Bytes.ofHexPairs (Str.padToByte (text.filter isHexDigit)))
  else none

end AsciiHex

namespace Ascii85

/-- The four bytes of a group of five digits in base 85, unless they exceed 32 bits. -/
def word? (digits : Bytes) : Option Bytes :=
  let value := digits.foldl (fun n d => n * 85 + d.toNat) 0
  if value < UInt32.size then some (Bytes.ofNatBE 4 value) else none

/-- The bytes of a last group of fewer than five digits, which is completed with the highest digit.
One digit alone is refused. -/
def lastWord? (digits : Bytes) : Option Bytes :=
  match digits.length with
  | 0 => some []
  | 1 => none
  | n => (word? (digits ++ List.replicate (5 - n) 84)).map (·.take (n - 1))

/-- The bytes of some symbols, the digits of the current group being given. -/
def decodeGroups? : Bytes → Bytes → Option Bytes
  | group, [] => lastWord? group
  | group, b :: rest =>
    if b = 122 ∧ group.isEmpty then (decodeGroups? [] rest).map ([0, 0, 0, 0] ++ ·)
    else if 0x21 ≤ b ∧ b ≤ 0x75 then
      let group := group ++ [b - 0x21]
      if group.length = 5 then do
        let bytes ← word? group
        let out ← decodeGroups? [] rest
        some (bytes ++ out)
      else decodeGroups? group rest
    else none

/-- The bytes of the symbols before a tilde. -/
def decode? (data : Bytes) : Option Bytes :=
  decodeGroups? [] ((data.filter fun b => !isWhiteSpace b).takeWhile (· ≠ 126))

end Ascii85

end Folio.Filter
