/-!
# Single-precision numbers

Operations on singles that colors and functions share. What is said of a largest or a smallest
number leaves aside a number that is none.
-/

namespace Folio.Single

/-- The number in `low` to `high` that is nearest to `x`. -/
def clamp (x low high : Float32) : Float32 :=
  if x < low then low else if high < x then high else x

/-- The larger of two numbers. -/
def max (x y : Float32) : Float32 := if x.isNaN || x < y then y else x

/-- The smaller of two numbers. -/
def min (x y : Float32) : Float32 := if x.isNaN || y < x then y else x

/-- The number in an interval that is nearest to `x`. An interval that ends before its start has
only the start. -/
def clampTo (interval : Float32 × Float32) (x : Float32) : Float32 :=
  clamp x interval.1 (max interval.2 interval.1)

/-- The image of `x` under the linear map that takes one interval to another. -/
def interpolate (x : Float32) (source target : Float32 × Float32) : Float32 :=
  if source.2 == source.1 then target.1
  else target.1 + (x - source.1) * (target.2 - target.1) / (source.2 - source.1)

/-- Whether two numbers differ by at most 1/4096. -/
def isNear (x y : Float32) : Bool := (x - y).abs ≤ 1 / 4096

/-- The pairs that the numbers of a list form; one without a partner is dropped. -/
def pairs : List Float32 → List (Float32 × Float32)
  | x :: y :: rest => (x, y) :: pairs rest
  | _ => []

/-- The first `count` numbers of a list, completed with zeros. -/
def fit : Nat → List Float32 → List Float32
  | 0, _ => []
  | count + 1, [] => 0 :: fit count []
  | count + 1, x :: rest => x :: fit count rest

end Folio.Single
