import Folio.Bytes

/-!
# UTF-16

Reading 16-bit code units as text. A pair of surrogates is one character; a surrogate without its
partner becomes the replacement character and the unit after it is read anew.
-/

namespace Folio.Text

/-- The character that stands for what cannot be decoded. -/
def replacement : Char := Char.ofNat 0xFFFD

namespace Utf16

/-- Whether a code unit is the first half of a pair. -/
def isHigh (unit : Nat) : Bool := 0xD800 ≤ unit && unit < 0xDC00

/-- Whether a code unit is the second half of a pair. -/
def isLow (unit : Nat) : Bool := 0xDC00 ≤ unit && unit < 0xE000

/-- The characters of a sequence of code units. -/
def decode : List Nat → List Char
  | [] => []
  | [unit] => [if isHigh unit || isLow unit then replacement else Char.ofNat unit]
  | unit :: next :: rest =>
    if isHigh unit then
      if isLow next then
        Char.ofNat (0x10000 + (unit - 0xD800) * 0x400 + (next - 0xDC00)) :: decode rest
      else replacement :: decode (next :: rest)
    else (if isLow unit then replacement else Char.ofNat unit) :: decode (next :: rest)

/-- The characters of a sequence of code units, if no surrogate lacks its partner. -/
def decode? : List Nat → Option (List Char)
  | [] => some []
  | [unit] => if isHigh unit || isLow unit then none else some [Char.ofNat unit]
  | unit :: next :: rest =>
    if isHigh unit then
      if isLow next then
        (decode? rest).map fun chars =>
          Char.ofNat (0x10000 + (unit - 0xD800) * 0x400 + (next - 0xDC00)) :: chars
      else none
    else if isLow unit then none
    else (decode? (next :: rest)).map fun chars => Char.ofNat unit :: chars

/-- The code units that pairs of bytes stand for, high byte first; an odd last byte is dropped. -/
def units : Bytes → List Nat
  | high :: low :: rest => (high.toNat * 256 + low.toNat) :: units rest
  | _ => []

/-- The text of big-endian code units. -/
def decodeBytes (bytes : Bytes) : String := String.ofList (decode (units bytes))

end Utf16

end Folio.Text
