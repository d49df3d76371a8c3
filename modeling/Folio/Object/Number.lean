/-!
# Numbers

A number is a 64-bit integer or a binary floating-point number. Integers are read off a real number
by dropping its fraction, and a value beyond 64 bits becomes the nearest one within.
-/

namespace Folio

/-- A number object. -/
inductive Number where
  | integer (value : Int64)
  | real (value : Float)

namespace Number

/-- The number as a double. -/
def toFloat : Number → Float
  | integer i => i.toFloat
  | real r => r

/-- An integer as a single, rounded to nearest, where one of more than 53 bits is first rounded to a double. -/
def integerToFloat32 (i : Int64) : Float32 :=
  if i.toInt.natAbs ≤ 1 <<< 53 then
    let magnitude := i.toInt.natAbs.toUInt64.toFloat32
    if i < 0 then -magnitude else magnitude
  else i.toFloat.toFloat32

/-- The number as a single, rounded to nearest. -/
def toFloat32 : Number → Float32
  | integer i => integerToFloat32 i
  | real r => r.toFloat32

/-- The number as an integer: the fraction is dropped, and what lies outside 64 bits is clamped. -/
def toInt64 : Number → Int64
  | integer i => i
  | real r => r.toInt64

/-- Equality of numbers: an integer never equals a real, and reals compare as numbers do. -/
def same : Number → Number → Bool
  | integer i, integer j => i == j
  | real r, real s => r == s
  | _, _ => false

end Number

end Folio
