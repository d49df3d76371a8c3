import Folio.Bytes

/-!
# Sequences of bits

Data read bit by bit, the highest bit of each byte first.
-/

namespace Folio.Bits

/-- The lowest `count` bits of a number, the highest first. -/
def ofNat : Nat → Nat → List Bool
  | 0, _ => []
  | count + 1, n => n.testBit count :: ofNat count n

/-- The bits of some bytes. -/
def ofBytes (bytes : Bytes) : List Bool := bytes.flatMap fun b => ofNat 8 b.toNat

/-- The value of some bits as a number. -/
def toNat (bits : List Bool) : Nat := bits.foldl (fun n b => n * 2 + b.toNat) 0

/-- The number that the next `width` bits stand for, and the bits after them. -/
def read? (width : Nat) (bits : List Bool) : Option (Nat × List Bool) :=
  let (word, rest) := bits.splitAt width
  if word.length = width then some (toNat word, rest) else none

/-- The numbers of `width` bits each that some bits start with, at most `count` of them. -/
def numbers (width : Nat) : Nat → List Bool → List Nat
  | 0, _ => []
  | count + 1, bits =>
    match read? width bits with
    | some (n, rest) => n :: numbers width count rest
    | none => []

/-- The byte of at most eight bits, completed with zeros. -/
def toByte (bits : List Bool) : UInt8 := (toNat bits <<< (8 - bits.length)).toUInt8

/-- The bytes that some bits fill, the last one completed with zeros. -/
def pack : List Bool → Bytes
  | b0 :: b1 :: b2 :: b3 :: b4 :: b5 :: b6 :: b7 :: bits =>
    toByte [b0, b1, b2, b3, b4, b5, b6, b7] :: pack bits
  | [] => []
  | bits => [toByte bits]

/-- The bits from the next whole byte on, where the bits are the end of a sequence of bytes. -/
def align (bits : List Bool) : List Bool := bits.drop (bits.length % 8)

/-- The bit of a byte at a place, counted from the highest. -/
def testBit (b : UInt8) (place : Nat) : Bool := b.toNat.testBit (7 - place)

end Folio.Bits
