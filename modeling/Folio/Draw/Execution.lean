import Folio.Draw.Machine
import Folio.Draw.Operation

/-!
# Executing content streams

Content streams are executed instruction by instruction into a draw list. A form is a content stream
of its own, executed where it is drawn, with its own resources before those around it.
-/

namespace Folio

namespace Machine

/-- Applies the parameters of a graphics state. A pattern of dashes that cannot be read keeps the
new style from being noted. -/
def applyParameters (store : Store) (d : Dict) (m : Machine) : Machine :=
  let single? (key : Name) : Option Float32 := store.entry? Object.float32? d key
  let number? (key : Name) : Option Int32 := store.entry? Object.int32? d key
  let m := match store.entry? Object.bool? d "AIS" with
    | some alphaIsShape => { m with state := { m.state with alphaIsShape } }
    | none => m
  let m := (single? "CA").elim m (m.setAlpha true)
  let m := (single? "ca").elim m (m.setAlpha false)
  let changes : List (StrokeStyle → StrokeStyle) :=
    ((single? "LW").map fun x s => { s with width := x }).toList ++
    (((number? "LC").bind Operation.cap?).map fun x s => { s with cap := x }).toList ++
    (((number? "LJ").bind Operation.join?).map fun x s => { s with join := x }).toList ++
    ((single? "ML").map fun x s => { s with miterLimit := x }).toList
  let m := changes.foldl (fun m change => m.changeStyle change) m
  match store.entry? Object.array? d "D" with
  | none => if changes.isEmpty then m else m.emitStyle
  | some pattern =>
    match store.item? Object.array? pattern 0, store.item? Object.float32? pattern 1 with
    | some dashes, some offset =>
      (m.changeStyle (·.withDashes (Object.float32s dashes) offset)).emitStyle
    | _, _ => m

/-- How a form is drawn. -/
abbrev FormDrawing := Resources → Stream → Machine → Machine

/-- Draws an external object. -/
def drawXObject (drawForm : FormDrawing) (r : Resources) (s : Stream) (m : Machine) : Machine :=
  let membership := (s.dict.get? "OC").bind (Membership.ofObject? r.store)
  let kind := r.store.entry? Object.name? s.dict "Subtype"
  m.within membership fun m =>
    if kind = some ("Image" : Name) then m.drawImage r s (m.gallery.place s)
    else if kind = some ("Form" : Name) then drawForm r s m
    else m

/-- The membership of marked content with the given properties, which may be named. -/
def membershipOf? (r : Resources) (properties : Object) : Option Membership :=
  match properties with
  | .name n => (r.property? n).bind (Membership.ofObject? r.store)
  | o => Membership.ofObject? r.store o

/-- Performs an operation. -/
def perform (ratio : Float32) (drawForm : FormDrawing) (r : Resources) (m : Machine) :
    Operation → Machine
  | .save => m.save
  | .restore => m.restore
  | .concat t => m.concat t
  | .restyle change => (m.changeStyle change).emitStyle
  | .setColor stroke space components => m.setColor ratio stroke space components
  | .selectSpace stroke o =>
    (r.colorSpace? o).elim m fun space => m.setColor ratio stroke space space.initialColor
  | .changeColor stroke components => m.setColor ratio stroke (m.space stroke) components
  | .move p => m.moveTo p
  | .line p => m.extend (.line p) p
  | .curve c1 c2 p => m.extend (.curve c1 c2 p) p
  | .curveFromCurrent c2 p => m.extend (.curve m.current c2 p) p
  | .closePath => m.closePath
  | .rectangle corner opposite => m.addRectangle corner opposite
  | .paint close fill stroke => (if close then m.closePath else m).paint fill stroke
  | .endPath => m.endPath
  | .clip rule => { m with pendingClip := some rule }
  | .graphicsState n => (r.graphicsState? n).elim m fun d => m.applyParameters r.store d
  | .xObject n => (r.xObject? n).elim m fun s => m.drawXObject drawForm r s
  | .inlineImage s => m.drawImage r s (m.gallery.add s)
  | .beginMarked => m.beginMarked none
  | .beginLayer properties => m.beginMarked (membershipOf? r properties)
  | .endMarked => m.endMarked
  | .nothing => m

/-- Executes a content stream. -/
def execute (ratio : Float32) (drawForm : FormDrawing) (r : Resources) (content : Bytes)
    (m : Machine) : Machine :=
  let operations := (Content.instructions content).map Operation.ofInstruction
  (operations.foldl (perform ratio drawForm r) m).close

/-- The transform of a form, from its coordinates to those around it. -/
def formTransform (store : Store) (d : Dict) : Affine :=
  let coefficients := (store.entry? Object.array? d "Matrix").map (·.filterMap Object.float?)
  (coefficients.bind Affine.ofList?).getD .identity

/-- The outline of the box outside which a form does not draw. -/
def formBox? (store : Store) (d : Dict) : Option Path :=
  match (store.entry? Object.array? d "BBox").map (·.filterMap Object.float?) with
  | some [x0, y0, x1, y1] => some (Path.upright ⟨x0, y0⟩ ⟨x1, y1⟩)
  | _ => none

/-- Draws a form whose content is known: what `draw` does, with the transform and the clip of the
form, and without the path and the states around it. -/
def drawFormContent (store : Store) (d : Dict) (draw : Machine → Machine) (m : Machine) : Machine :=
  let transformed := m.save.concat (formTransform store d)
  let clipped := (formBox? store d).elim transformed fun box =>
    transformed.emit (.state (.clip box .nonzero))
  ((draw clipped.enter).leave clipped).restore

/-- Draws a form, where forms are nested in at most so many levels. A form does not draw itself:
those in `active` are being drawn. -/
def drawFormWithin (ratio : Float32) : Nat → List Ref → FormDrawing
  | 0, _, _, _, m => m
  | levels + 1, active, r, form, m =>
    if form.reference.any active.contains then m
    else
      match form.decoded r.store with
      | .error _ => m
      | .ok content =>
        let inner := (r.store.dict? form.dict "Resources").elim r r.nest
        let active := form.reference.toList ++ active
        m.drawFormContent r.store form.dict
          (execute ratio (drawFormWithin ratio levels active) inner content)

/-- The number of levels in which forms are nested. -/
def maxFormLevels : Nat := 16

end Machine

/-- What stays from one page to the next: the images met, and the points where the last path was. -/
structure DrawSession where
  gallery : Gallery := {}
  current : Point := .origin
  start : Point := .origin

namespace DrawSession

/-- The draw list of a page under a transform to the device, and the session afterwards. -/
def draw (session : DrawSession) (config : ImageConfig) (r : Resources) (transform : Affine)
    (content : Bytes) : List DrawCommand × DrawSession :=
  let started : Machine :=
    { state := ⟨transform, .gray, .black, .gray, {}, false⟩
      current := session.current
      start := session.start
      commands := #[.state (.transform transform)]
      gallery := session.gallery }
  let drawForm := Machine.drawFormWithin config.blackRatio Machine.maxFormLevels []
  let m := started.execute config.blackRatio drawForm r content
  (m.commands.toList, ⟨m.gallery, m.current, m.start⟩)

end DrawSession

end Folio
