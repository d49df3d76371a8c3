import Folio.Bytes

/-!
# Adaptive arithmetic decoding

Each bit is decoded in a context, which keeps an estimate of how likely the bit is. The decoder
holds an interval and the position of the data's value within it, both in words of 32 bits; the
register `c` holds the complement of the data. Past the end of the data, bytes are read as `FF`,
and from a marker on no more data is taken.
-/

namespace Folio.Bilevel

/-- The estimate of a context: a row of the table of probabilities, and the more probable bit. -/
structure BitContext where
  index : Nat := 0
  likely : Bool := false
deriving DecidableEq

instance : Inhabited BitContext := ⟨{}⟩

/-- A row of the table of probabilities. -/
structure Estimate where
  /-- The size of the interval of the less probable bit. -/
  size : UInt32
  /-- The row after the more probable bit. -/
  afterLikely : Nat
  /-- The row after the less probable bit. -/
  afterUnlikely : Nat
  /-- Whether the less probable bit becomes the more probable one. -/
  switches : Bool

/-- The table of probabilities. -/
def estimates : Array Estimate := #[
  ⟨0x5601, 1, 1, true⟩, ⟨0x3401, 2, 6, false⟩, ⟨0x1801, 3, 9, false⟩,
  ⟨0x0AC1, 4, 12, false⟩, ⟨0x0521, 5, 29, false⟩, ⟨0x0221, 38, 33, false⟩,
  ⟨0x5601, 7, 6, true⟩, ⟨0x5401, 8, 14, false⟩, ⟨0x4801, 9, 14, false⟩,
  ⟨0x3801, 10, 14, false⟩, ⟨0x3001, 11, 17, false⟩, ⟨0x2401, 12, 18, false⟩,
  ⟨0x1C01, 13, 20, false⟩, ⟨0x1601, 29, 21, false⟩, ⟨0x5601, 15, 14, true⟩,
  ⟨0x5401, 16, 14, false⟩, ⟨0x5101, 17, 15, false⟩, ⟨0x4801, 18, 16, false⟩,
  ⟨0x3801, 19, 17, false⟩, ⟨0x3401, 20, 18, false⟩, ⟨0x3001, 21, 19, false⟩,
  ⟨0x2801, 22, 19, false⟩, ⟨0x2401, 23, 20, false⟩, ⟨0x2201, 24, 21, false⟩,
  ⟨0x1C01, 25, 22, false⟩, ⟨0x1801, 26, 23, false⟩, ⟨0x1601, 27, 24, false⟩,
  ⟨0x1401, 28, 25, false⟩, ⟨0x1201, 29, 26, false⟩, ⟨0x1101, 30, 27, false⟩,
  ⟨0x0AC1, 31, 28, false⟩, ⟨0x09C1, 32, 29, false⟩, ⟨0x08A1, 33, 30, false⟩,
  ⟨0x0521, 34, 31, false⟩, ⟨0x0441, 35, 32, false⟩, ⟨0x02A1, 36, 33, false⟩,
  ⟨0x0221, 37, 34, false⟩, ⟨0x0141, 38, 35, false⟩, ⟨0x0111, 39, 36, false⟩,
  ⟨0x0085, 40, 37, false⟩, ⟨0x0049, 41, 38, false⟩, ⟨0x0025, 42, 39, false⟩,
  ⟨0x0015, 43, 40, false⟩, ⟨0x0009, 44, 41, false⟩, ⟨0x0005, 45, 42, false⟩,
  ⟨0x0001, 45, 43, false⟩, ⟨0x5601, 46, 46, false⟩]

/-- The estimate that a context holds. -/
def BitContext.estimate (cx : BitContext) : Estimate := estimates.getD cx.index ⟨0, 0, 0, false⟩

/-- The context after the more probable bit. -/
def BitContext.seeLikely (cx : BitContext) : BitContext :=
  { cx with index := cx.estimate.afterLikely }

/-- The context after the less probable bit. -/
def BitContext.seeUnlikely (cx : BitContext) : BitContext :=
  ⟨cx.estimate.afterUnlikely, cx.likely != cx.estimate.switches⟩

/-- The state of an arithmetic decoder. -/
structure ArithmeticDecoder where
  data : Array UInt8
  /-- The position of the last byte that was taken. -/
  position : Nat
  /-- The complement of the data's value within the interval. -/
  c : UInt32
  /-- The size of the interval. -/
  a : UInt32
  /-- How many bits of `c` are left before the next byte is taken. -/
  ct : UInt32

namespace ArithmeticDecoder

/-- The byte at a distance from the last one taken. -/
def byte (d : ArithmeticDecoder) (offset : Nat) : UInt8 := d.data.getD (d.position + offset) 0xFF

/-- Takes the next byte. After `FF` only seven bits are new, and a marker is not taken. -/
def takeByte (d : ArithmeticDecoder) : ArithmeticDecoder :=
  if d.byte 0 = 0xFF then
    if d.byte 1 > 0x8F then { d with ct := 8 }
    else
      { d with
        position := d.position + 1
        c := d.c + (0xFE00 - (d.byte 1).toUInt32 * 512)
        ct := 7 }
  else
    { d with
      position := d.position + 1
      c := d.c + (0xFF00 - (d.byte 1).toUInt32 * 256)
      ct := 8 }

/-- The decoder at the start of some data. -/
def start (data : Bytes) : ArithmeticDecoder :=
  let d : ArithmeticDecoder := ⟨data.toArray, 0, 0, 0, 0⟩
  let d := { d with c := (d.byte 0 ^^^ 0xFF).toUInt32 <<< 16 }.takeByte
  { d with c := d.c <<< 7, ct := d.ct - 7, a := 0x8000 }

/-- Doubles the interval. -/
def double (d : ArithmeticDecoder) : ArithmeticDecoder :=
  let d := if d.ct = 0 then d.takeByte else d
  { d with a := d.a <<< 1, c := d.c <<< 1, ct := d.ct - 1 }

/-- Doubles the interval until it has at least half of its full size, at most `fuel` times. -/
def renormalize : Nat → ArithmeticDecoder → ArithmeticDecoder
  | 0, d => d
  | fuel + 1, d =>
    let d := d.double
    if d.a &&& 0x8000 ≠ 0 then d else renormalize fuel d

/-- The number of doublings after which any interval has its size. -/
def maxDoublings : Nat := 16

/-- Whether the value lies in the part of the interval that is left for the more probable bit, the
parts having exchanged their roles if the first has become the smaller one; and the decoder for the
part that it lies in. -/
def select (d : ArithmeticDecoder) (size : UInt32) : Bool × ArithmeticDecoder :=
  let rest := d.a - size
  if d.c >>> 16 < rest then (!(rest < size), { d with a := rest })
  else (rest < size, { d with a := size, c := d.c - (rest <<< 16) })

/-- The next bit in a context, the context after it, and the decoder after it. -/
def decode (d : ArithmeticDecoder) (cx : BitContext) : Bool × BitContext × ArithmeticDecoder :=
  let size := cx.estimate.size
  let rest := d.a - size
  if d.c >>> 16 < rest ∧ rest &&& 0x8000 ≠ 0 then (cx.likely, cx, { d with a := rest })
  else
    let (isLikely, d) := d.select size
    if isLikely then (cx.likely, cx.seeLikely, d.renormalize maxDoublings)
    else (!cx.likely, cx.seeUnlikely, d.renormalize maxDoublings)

end ArithmeticDecoder

end Folio.Bilevel
