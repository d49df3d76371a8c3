import Folio.Content.Instruction
import Folio.Draw.Command

/-!
# Operations

What the instructions of a content stream mean. Operators for text and shadings, unknown ones, and
those without the operands that they need mean nothing.
-/

namespace Folio

/-- What an instruction means. -/
inductive Operation where
  | save
  | restore
  | concat (matrix : Affine)
  | restyle (change : StrokeStyle → StrokeStyle)
  | setColor (stroke : Bool) (space : ColorSpace) (components : List Float32)
  | selectSpace (stroke : Bool) (space : Object)
  | changeColor (stroke : Bool) (components : List Float32)
  | move (target : Point)
  | line (target : Point)
  | curve (control1 control2 target : Point)
  /-- A curve whose first control point is the current point. -/
  | curveFromCurrent (control2 target : Point)
  | closePath
  | rectangle (corner opposite : Point)
  | paint (close : Bool) (fill : Option FillRule) (stroke : Bool)
  | endPath
  | clip (rule : FillRule)
  | graphicsState (name : Name)
  | xObject (name : Name)
  | inlineImage (stream : Stream)
  | beginMarked
  /-- Content begins that belongs to the layers with the given properties. -/
  | beginLayer (properties : Object)
  | endMarked
  | nothing

namespace Operation

/-- The shape of line ends with a number. -/
def cap? (n : Int32) : Option LineCap :=
  if n = 0 then some .butt else if n = 1 then some .round else if n = 2 then some .square else none

/-- The shape of line corners with a number. -/
def join? (n : Int32) : Option LineJoin :=
  if n = 0 then some .miter else if n = 1 then some .round else if n = 2 then some .bevel else none

/-- The last operands of an instruction, if there are so many and all are numbers. -/
def numbers? (i : Content.Instruction) (count : Nat) : Option (List Float) :=
  if count ≤ i.operands.length then
    (i.operands.drop (i.operands.length - count)).mapM Object.float?
  else none

/-- The operation that a list of numbers gives. -/
def ofNumbers (i : Content.Instruction) (count : Nat) (make : List Float → Operation) :
    Operation := (numbers? i count).elim nothing make

/-- The operation of a color in a space of the device. -/
def deviceColor (i : Content.Instruction) (stroke : Bool) (space : ColorSpace) : Operation :=
  i.numbers?.elim nothing (setColor stroke space)

/-- The change of a line style by the operand of an instruction. -/
def restyleBy {α : Type} (change : α → StrokeStyle → StrokeStyle) (value : Option α) :
    Operation := value.elim nothing fun v => restyle (change v)

/-- The dashes that two operands state. -/
def dashes (i : Content.Instruction) : Operation :=
  match i.operand? Object.array? 0, i.operand? Object.float32? 1 with
  | some items, some offset => restyle (·.withDashes (Object.float32s items) offset)
  | _, _ => nothing

/-- The operators of graphics state and colors. -/
def ofStateOperator? (i : Content.Instruction) : Option Operation :=
  let restyleTo (change : Float32 → StrokeStyle → StrokeStyle) : Operation :=
    ofNumbers i 1 fun ns => restyleBy (fun x : Float => change x.toFloat32) ns.head?
  let colors := Object.float32s i.operands
  let selection (stroke : Bool) : Operation := i.operands.head?.elim nothing (selectSpace stroke)
  [("q", save), ("Q", restore),
    ("cm", ofNumbers i 6 fun ns => (Affine.ofList? ns).elim nothing concat),
    ("w", restyleTo fun x s => { s with width := x }),
    ("J", restyleBy (fun x s => { s with cap := x }) ((i.operand? Object.int32? 0).bind cap?)),
    ("j", restyleBy (fun x s => { s with join := x }) ((i.operand? Object.int32? 0).bind join?)),
    ("M", restyleTo fun x s => { s with miterLimit := x }),
    ("d", dashes i),
    ("g", deviceColor i false .gray), ("G", deviceColor i true .gray),
    ("rg", deviceColor i false .rgb), ("RG", deviceColor i true .rgb),
    ("k", deviceColor i false .cmyk), ("K", deviceColor i true .cmyk),
    ("cs", selection false), ("CS", selection true),
    ("sc", changeColor false colors), ("scn", changeColor false colors),
    ("SC", changeColor true colors), ("SCN", changeColor true colors),
    ("gs", (i.operand? Object.name? 0).elim nothing graphicsState)].lookup i.operator.text

/-- The operators of paths. -/
def ofPathOperator? (i : Content.Instruction) : Option Operation :=
  [("m", ofNumbers i 2 fun
      | [x, y] => move ⟨x, y⟩
      | _ => nothing),
    ("l", ofNumbers i 2 fun
      | [x, y] => line ⟨x, y⟩
      | _ => nothing),
    ("c", ofNumbers i 6 fun
      | [x1, y1, x2, y2, x3, y3] => curve ⟨x1, y1⟩ ⟨x2, y2⟩ ⟨x3, y3⟩
      | _ => nothing),
    ("v", ofNumbers i 4 fun
      | [x2, y2, x3, y3] => curveFromCurrent ⟨x2, y2⟩ ⟨x3, y3⟩
      | _ => nothing),
    ("y", ofNumbers i 4 fun
      | [x1, y1, x3, y3] => curve ⟨x1, y1⟩ ⟨x3, y3⟩ ⟨x3, y3⟩
      | _ => nothing),
    ("h", closePath),
    ("re", ofNumbers i 4 fun
      | [x, y, w, h] => rectangle ⟨x, y⟩ ⟨x + w, y + h⟩
      | _ => nothing),
    ("f", paint false (some .nonzero) false), ("F", paint false (some .nonzero) false),
    ("f*", paint false (some .evenOdd) false), ("S", paint false none true),
    ("s", paint true none true), ("B", paint false (some .nonzero) true),
    ("B*", paint false (some .evenOdd) true), ("b", paint true (some .nonzero) true),
    ("b*", paint true (some .evenOdd) true), ("n", endPath), ("W", clip .nonzero),
    ("W*", clip .evenOdd)].lookup i.operator.text

/-- The operators of objects and marked content. -/
def ofObjectOperator? (i : Content.Instruction) : Option Operation :=
  let isLayer := i.operand? Object.name? 0 = some ("OC" : Name)
  [("Do", (i.operand? Object.name? 0).elim nothing xObject),
    ("BI", (i.operand? Object.stream? 0).elim nothing inlineImage),
    ("BMC", beginMarked),
    ("BDC", if isLayer then (i.operands[1]?).elim beginMarked beginLayer else beginMarked),
    ("EMC", endMarked)].lookup i.operator.text

/-- What an instruction means. -/
def ofInstruction (i : Content.Instruction) : Operation :=
  ((ofStateOperator? i).or ((ofPathOperator? i).or (ofObjectOperator? i))).getD nothing

end Operation

end Folio
