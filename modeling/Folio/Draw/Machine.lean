import Folio.Draw.Command
import Folio.Draw.Gallery

/-!
# The drawing machine

A content stream is executed by a machine that holds the graphics state and the path under
construction, and that notes each change of the state and all that is painted as a draw command.
-/

namespace Folio

/-- The part of the graphics state that drawing depends on. -/
structure GraphicsState where
  ctm : Affine
  fillSpace : ColorSpace := .gray
  fill : Rgb := .black
  strokeSpace : ColorSpace := .gray
  style : StrokeStyle := {}
  /-- Whether opacities are meant for shapes, not for paint. -/
  alphaIsShape : Bool := false

/-- The state of the machine. -/
structure Machine where
  state : GraphicsState
  /-- The states that the content stream has saved, the newest first. -/
  saved : List GraphicsState := []
  /-- The states under those, which belong to the content around the stream. -/
  enclosing : List GraphicsState := []
  /-- For each open sequence of marked content, whether it belongs to a layer; the innermost is
  first. -/
  marked : List Bool := []
  path : Path := #[]
  /-- Where the path has come to. -/
  current : Point := .origin
  /-- Where its last part began. -/
  start : Point := .origin
  /-- The rule of the clip that the path becomes when it ends. -/
  pendingClip : Option FillRule := none
  /-- The commands so far. -/
  commands : Array DrawCommand := #[]
  gallery : Gallery := {}

namespace Machine

/-- The machine after noting a command. -/
def emit (c : DrawCommand) (m : Machine) : Machine := { m with commands := m.commands.push c }

/-! ## Graphics state -/

/-- Saves the state. -/
def save (m : Machine) : Machine :=
  { m with saved := m.state :: m.saved }.emit (.state .push)

/-- Returns to the state saved last, if the content stream has saved one. -/
def restore (m : Machine) : Machine :=
  match m.saved with
  | [] => m
  | s :: rest => { m with state := s, saved := rest }.emit (.state .pop)

/-- Puts a transform before the one in effect. -/
def concat (t : Affine) (m : Machine) : Machine :=
  let ctm := m.state.ctm.compose t
  { m with state := { m.state with ctm } }.emit (.state (.transform ctm))

/-- Notes the style of lines. -/
def emitStyle (m : Machine) : Machine := m.emit (.state (.strokeStyle m.state.style))

/-- Changes the style of lines. -/
def changeStyle (change : StrokeStyle → StrokeStyle) (m : Machine) : Machine :=
  { m with state := { m.state with style := change m.state.style } }

/-- Selects a color space and a color in it, for lines or for areas. -/
def setColor (ratio : Float32) (stroke : Bool) (space : ColorSpace) (components : List Float32)
    (m : Machine) : Machine :=
  let color := space.toRgb ratio components
  if stroke then
    { m with state := { m.state with strokeSpace := space } }.emit (.state (.strokeColor color))
  else
    { m with state := { m.state with fillSpace := space, fill := color } }.emit
      (.state (.fillColor color))

/-- The color space selected for lines or for areas. -/
def space (m : Machine) (stroke : Bool) : ColorSpace :=
  if stroke then m.state.strokeSpace else m.state.fillSpace

/-- Sets an opacity. -/
def setAlpha (stroke : Bool) (value : Float32) (m : Machine) : Machine :=
  m.emit (.alpha (Single.clamp value 0 1) stroke (!m.state.alphaIsShape))

/-! ## Paths -/

/-- Begins a part of the path. -/
def moveTo (p : Point) (m : Machine) : Machine :=
  { m with path := m.path.push (.move p), current := p, start := p }

/-- Goes on from the current point, where a path begins if there is none yet. -/
def extend (step : PathStep) (target : Point) (m : Machine) : Machine :=
  let path := if m.path.isEmpty then #[.move m.current] else m.path
  { m with path := path.push step, current := target }

/-- Closes the last part of the path. -/
def closePath (m : Machine) : Machine :=
  { m with path := if m.path.isEmpty then m.path else m.path.push .close, current := m.start }

/-- Appends a rectangle to the path. -/
def addRectangle (corner opposite : Point) (m : Machine) : Machine :=
  { m with path := m.path ++ Path.rectangle corner opposite, current := corner, start := corner }

/-- Ends the path, which becomes a clip if one is pending. -/
def endPath (m : Machine) : Machine :=
  let ended := { m with path := #[], pendingClip := none }
  match m.pendingClip with
  | none => ended
  | some rule => ended.emit (.state (.clip m.path rule))

/-- Fills the path, or draws its outline, or both, unless it is empty; and ends it. -/
def paint (fill : Option FillRule) (stroke : Bool) (m : Machine) : Machine :=
  if m.path.isEmpty then m.endPath
  else
    let filled := fill.elim m fun rule => m.emit (.fill m.path rule)
    let painted := if stroke then filled.emit (.stroke m.path) else filled
    painted.endPath

/-! ## Images and layers -/

/-- Draws the image whose number the stream `s` was given. Streams with one reference are given one
number, and the image is the stream that was met first. -/
def drawImage (r : Resources) (s : Stream) (placed : Nat × Gallery) (m : Machine) : Machine :=
  let shown := (placed.2.stream? placed.1).getD s
  { m with gallery := placed.2 }.emit (.image placed.1 shown r m.state.fill)

/-- Does `draw` inside the layers of a membership, if there is one. -/
def within (membership : Option Membership) (draw : Machine → Machine) (m : Machine) : Machine :=
  match membership with
  | none => draw m
  | some layers => (draw (m.emit (.pushLayer layers))).emit .popLayer

/-- Begins marked content, which may belong to layers. -/
def beginMarked (membership : Option Membership) (m : Machine) : Machine :=
  match membership with
  | none => { m with marked := false :: m.marked }
  | some layers => { m with marked := true :: m.marked }.emit (.pushLayer layers)

/-- Ends the innermost marked content, if there is any. -/
def endMarked (m : Machine) : Machine :=
  match m.marked with
  | [] => m
  | layered :: rest =>
    let ended := { m with marked := rest }
    if layered then ended.emit .popLayer else ended

/-! ## Content streams -/

/-- Begins a content stream inside another one. -/
def enter (m : Machine) : Machine :=
  { m with saved := [], enclosing := m.saved ++ m.enclosing, marked := [], path := #[],
           pendingClip := none }

/-- Ends all marked content and returns to the state before all that were saved. -/
def close (m : Machine) : Machine :=
  let unmarked := m.marked.foldl (fun m _ => m.endMarked) m
  unmarked.saved.foldl (fun m _ => m.restore) unmarked

/-- Goes on with the content stream of `outer`, inside which this one was executed. The points of
the path stay where they are. -/
def leave (m outer : Machine) : Machine :=
  { m with saved := outer.saved, enclosing := outer.enclosing, marked := outer.marked,
           path := outer.path, pendingClip := outer.pendingClip }

end Machine

end Folio
