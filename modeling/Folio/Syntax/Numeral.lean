import Folio.Object.Decimal
import Folio.Object.Number
import Folio.Syntax.Character

/-!
# Numerals

A numeral is an optional sign and decimal digits among which at most one point may stand; there is
at least one digit. Without a point it is an integer, unless it exceeds 64 bits; otherwise it is
the nearest real number.
-/

namespace Folio.Syntax

/-- A numeral as it is written. -/
structure Numeral where
  negative : Bool
  /-- The digits before the point. -/
  whole : Bytes
  /-- The digits after the point, if there is one. -/
  fraction : Option Bytes

namespace Numeral

/-- The value of the numeral as an integer. -/
def toInt (n : Numeral) : Int :=
  if n.negative then -(Decimal.digitsValue n.whole : Int) else Decimal.digitsValue n.whole

/-- The value of the numeral as a real number. -/
def toFloat (n : Numeral) : Float :=
  let fraction := n.fraction.getD []
  let digits := Decimal.digitsValue (n.whole ++ fraction)
  let size := Decimal.nearest digits (Nat.pow 10 fraction.length)
  if n.negative then -size else size

/-- The number that the numeral stands for. -/
def toNumber (n : Numeral) : Number :=
  if n.fraction.isNone && Int64.minValue.toInt ≤ n.toInt && n.toInt ≤ Int64.maxValue.toInt then
    .integer (.ofInt n.toInt)
  else .real n.toFloat

end Numeral

/-- A sign in front of some data, as whether it is a minus, and the data after it. -/
def splitSign : Bytes → Bool × Bytes
  | 43 :: rest => (false, rest)
  | 45 :: rest => (true, rest)
  | data => (false, data)

/-- The numeral that the data starts with and the data after it. -/
def readNumeral? (data : Bytes) : Option (Numeral × Bytes) :=
  let (negative, data) := splitSign data
  let whole := data.takeWhile isDigit
  match data.dropWhile isDigit with
  | 46 :: rest =>
    let fraction := rest.takeWhile isDigit
    if whole.isEmpty && fraction.isEmpty then none
    else some (⟨negative, whole, some fraction⟩, rest.dropWhile isDigit)
  | rest => if whole.isEmpty then none else some (⟨negative, whole, none⟩, rest)

/-- The number that the data starts with and the data after it. -/
def readNumber? (data : Bytes) : Option (Number × Bytes) :=
  (readNumeral? data).map fun (n, rest) => (n.toNumber, rest)

/-- The integer that the data starts with and the data after it. -/
def readInteger? (data : Bytes) : Option (Int64 × Bytes) :=
  match readNumber? data with
  | some (.integer i, rest) => some (i, rest)
  | _ => none

end Folio.Syntax
