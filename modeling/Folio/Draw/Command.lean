import Folio.Draw.Geometry
import Folio.Layer.Membership
import Folio.Resources

/-!
# Draw commands

What a content stream draws, as a list of commands that can be replayed any number of times.
-/

namespace Folio

/-- The shape of the ends of a line. -/
inductive LineCap where
  | butt
  | round
  | square
deriving DecidableEq

/-- The shape of the corners of a line. -/
inductive LineJoin where
  | miter
  | round
  | bevel
deriving DecidableEq

/-- How lines are drawn. -/
structure StrokeStyle where
  width : Float32 := 1
  cap : LineCap := .butt
  join : LineJoin := .miter
  miterLimit : Float32 := 10
  /-- The lengths of dashes and gaps; a line without any is solid. -/
  dashes : List Float32 := []
  dashOffset : Float32 := 0

/-- The style with a pattern of dashes. If all lengths are zero, lines are solid. -/
def StrokeStyle.withDashes (s : StrokeStyle) (dashes : List Float32) (offset : Float32) :
    StrokeStyle :=
  if dashes.all (· == 0) then { s with dashes := [], dashOffset := 0 }
  else { s with dashes, dashOffset := offset }

/-- A command that has an effect on others only. -/
inductive StateCommand where
  | fillColor (color : Rgb)
  | strokeColor (color : Rgb)
  | strokeStyle (style : StrokeStyle)
  | transform (ctm : Affine)
  | push
  | pop
  | clip (path : Path) (rule : FillRule)

/-- A command of a draw list. -/
inductive DrawCommand where
  | state (command : StateCommand)
  /-- An opacity for filling or stroking. It holds for the shape only, not for the paint, unless
  `paint` is true. -/
  | alpha (value : Float32) (stroke paint : Bool)
  | fill (path : Path) (rule : FillRule)
  | stroke (path : Path)
  /-- The image with a number in the gallery, with the resources around it. -/
  | image (number : Nat) (stream : Stream) (resources : Resources) (fill : Rgb)
  | pushLayer (membership : Membership)
  | popLayer

end Folio
