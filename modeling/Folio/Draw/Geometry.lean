/-!
# Points, transforms and paths
-/

namespace Folio

/-- A point of the plane. -/
structure Point where
  x : Float
  y : Float

/-- The point at which both coordinates are zero. -/
def Point.origin : Point := ⟨0, 0⟩

/-- An affine transform: it takes a point to `(a x + c y + e, b x + d y + f)`. -/
structure Affine where
  a : Float
  b : Float
  c : Float
  d : Float
  e : Float
  f : Float

namespace Affine

/-- The transform that leaves all points where they are. -/
def identity : Affine := ⟨1, 0, 0, 1, 0, 0⟩

/-- The transform that applies `second` first and `first` to what results. -/
def compose (first second : Affine) : Affine where
  a := first.a * second.a + first.c * second.b
  b := first.b * second.a + first.d * second.b
  c := first.a * second.c + first.c * second.d
  d := first.b * second.c + first.d * second.d
  e := first.a * second.e + first.c * second.f + first.e
  f := first.b * second.e + first.d * second.f + first.f

/-- The transform with six coefficients. -/
def ofList? : List Float → Option Affine
  | [a, b, c, d, e, f] => some ⟨a, b, c, d, e, f⟩
  | _ => none

end Affine

/-- A step along a path. -/
inductive PathStep where
  | move (target : Point)
  | line (target : Point)
  | curve (control1 control2 target : Point)
  /-- Back to where the part of the path began. -/
  | close

/-- A path, step by step. -/
abbrev Path := Array PathStep

/-- The outline of a rectangle with two opposite corners. -/
def Path.rectangle (p q : Point) : Path :=
  #[.move p, .line ⟨q.x, p.y⟩, .line q, .line ⟨p.x, q.y⟩, .close]

/-- The outline of a rectangle, beginning at its smallest coordinates. -/
def Path.upright (p q : Point) : Path :=
  let low (s t : Float) : Float := if t < s then t else s
  let high (s t : Float) : Float := if s < t then t else s
  rectangle ⟨low p.x q.x, low p.y q.y⟩ ⟨high p.x q.x, high p.y q.y⟩

/-- Which points a path encloses. -/
inductive FillRule where
  | nonzero
  | evenOdd
deriving DecidableEq

end Folio
