import Folio.Bytes

/-!
# Decimal numbers as doubles

`Decimal.nearest` is the double nearest to a quotient of natural numbers, found in exact integer
arithmetic: the quotient is scaled to 53 bits, or fewer below the smallest normal number, and
rounded, a tie going to the even neighbour.
-/

namespace Folio.Decimal

/-- The quotient rounded to the nearest natural number, a tie to the even one. -/
def roundDiv (num den : Nat) : Nat :=
  let q := num / den
  let twice := 2 * (num % den)
  if twice > den || (twice == den && q % 2 == 1) then q + 1 else q

/-- The double nearest to `num / den`; infinite if that lies beyond the largest one. -/
def nearest (num den : Nat) : Float :=
  if num = 0 then 0.0
  else
    let exponent : Int := max ((num.log2 : Int) - den.log2 - 53) (-1074)
    let num := num <<< (-exponent).toNat
    let den := den <<< exponent.toNat
    let wide := num / den ≥ 1 <<< 53
    let mantissa := roundDiv num (if wide then den * 2 else den)
    let step := (exponent + 1074).toNat + if wide then 1 else 0
    Float.ofBits (min (step <<< 52 + mantissa) 0x7FF0000000000000).toUInt64

/-- The value of decimal digits. -/
def digitsValue (digits : Bytes) : Nat := digits.foldl (fun n d => n * 10 + (d - 48).toNat) 0

end Folio.Decimal
