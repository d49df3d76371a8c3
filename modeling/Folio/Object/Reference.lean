/-!
# References

An indirect object is identified by its number and its generation.
-/

namespace Folio

/-- The identifier of an indirect object. -/
structure Ref where
  number : Int32
  generation : Int32
deriving DecidableEq, Hashable

namespace Ref

/-- The reference whose parts are `number` and `generation`, if both fit 32 bits. -/
def ofInts? (number generation : Int) : Option Ref :=
  let fits (n : Int) : Bool := -2147483648 ≤ n && n ≤ 2147483647
  if fits number && fits generation then some ⟨.ofInt number, .ofInt generation⟩ else none

/-- How a document writes the reference. -/
def text (r : Ref) : String := s!"{r.number.toInt} {r.generation.toInt} R"

end Ref

end Folio
