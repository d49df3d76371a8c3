import Mathlib
import Folio.Draw.Execution

/-!
# Drawing step by step

The instructions of a page and those of the forms drawn on it are one sequence of steps, in the order
in which they are executed. Which steps there are follows from the resources and the content alone, not
from what the machine has done before (`DrawStep.ofPage`). Main statement: `draw_eq`, a page is
drawn by taking these steps one after the other. So a property of every step is one of every page.
-/

namespace Folio

/-- The external object that an operation draws. -/
def Operation.xObject? : Operation → Option Name
  | .xObject n => some n
  | _ => none

theorem Operation.eq_xObject {o : Operation} {n : Name} (h : o.xObject? = some n) : o = .xObject n := by
  cases o <;> cases h
  rfl

/-- A step in drawing a page. -/
inductive DrawStep where
  /-- An operation that draws no external object. -/
  | perform (r : Resources) (o : Operation) (h : o.xObject? = none)
  /-- An external object begins that belongs to layers. -/
  | beginLayers (layers : Membership)
  | endLayers
  | image (r : Resources) (s : Stream)
  /-- The content begins of a form with a dictionary. -/
  | beginForm (store : Store) (d : Dict)
  | endForm
  | endPage

namespace DrawStep

/-- The steps of drawing an external object. -/
def ofXObject (ofForm : Resources → Stream → List DrawStep) (r : Resources) (s : Stream) :
    List DrawStep :=
  let membership := (s.dict.get? "OC").bind (Membership.ofObject? r.store)
  let kind := r.store.entry? Object.name? s.dict "Subtype"
  let inner :=
    if kind = some ("Image" : Name) then [image r s]
    else if kind = some ("Form" : Name) then ofForm r s
    else []
  membership.elim inner fun layers => beginLayers layers :: inner ++ [endLayers]

/-- The steps of an operation. -/
def ofOperation (ofForm : Resources → Stream → List DrawStep) (r : Resources) (o : Operation) :
    List DrawStep :=
  match h : o.xObject? with
  | some n => (r.xObject? n).elim [] (ofXObject ofForm r)
  | none => [perform r o h]

/-- The steps of the instructions of a content stream. -/
def ofContent (ofForm : Resources → Stream → List DrawStep) (r : Resources) (content : Bytes) :
    List DrawStep :=
  ((Content.instructions content).map Operation.ofInstruction).flatMap (ofOperation ofForm r)

/-- The steps of a form, where forms are nested in at most so many levels and those in `active` are
being drawn. -/
def ofForm : Nat → List Ref → Resources → Stream → List DrawStep
  | 0, _, _, _ => []
  | levels + 1, active, r, form =>
    if form.reference.any active.contains then []
    else
      match form.decoded r.store with
      | .error _ => []
      | .ok content =>
        let inner := (r.store.dict? form.dict "Resources").elim r r.nest
        let active := form.reference.toList ++ active
        beginForm r.store form.dict :: ofContent (ofForm levels active) inner content ++ [endForm]

/-- The steps of a page. -/
def ofPage (r : Resources) (content : Bytes) : List DrawStep :=
  ofContent (ofForm Machine.maxFormLevels []) r content ++ [endPage]

end DrawStep

namespace Machine

/-- The machine with the transform and the clip of a form, before the content of the form. -/
def surround (store : Store) (d : Dict) (m : Machine) : Machine :=
  let transformed := m.save.concat (formTransform store d)
  (formBox? store d).elim transformed fun box => transformed.emit (.state (.clip box .nonzero))

end Machine

/-- A machine inside the forms that are being drawn. -/
structure DrawRun where
  machine : Machine
  /-- For each form, the machine that goes on after it; the innermost form is first. -/
  outer : List Machine := []

namespace DrawRun

/-- Takes a step. -/
def step (ratio : Float32) (run : DrawRun) : DrawStep → DrawRun
  | .perform r o _ => { run with machine := run.machine.perform ratio (fun _ _ m => m) r o }
  | .beginLayers layers => { run with machine := run.machine.emit (.pushLayer layers) }
  | .endLayers => { run with machine := run.machine.emit .popLayer }
  | .image r s => { run with machine := run.machine.drawImage r s (run.machine.gallery.place s) }
  | .beginForm store d =>
    ⟨(run.machine.surround store d).enter, run.machine.surround store d :: run.outer⟩
  | .endForm =>
    match run.outer with
    | [] => run
    | m :: outer => ⟨(run.machine.close.leave m).restore, outer⟩
  | .endPage => { run with machine := run.machine.close }

/-- Takes some steps. -/
def steps (ratio : Float32) (run : DrawRun) (steps : List DrawStep) : DrawRun :=
  steps.foldl (step ratio) run

/-- The machine at the start of a page. -/
def start (session : DrawSession) (transform : Affine) : DrawRun where
  machine := {
    state := ⟨transform, .gray, .black, .gray, {}, false⟩
    current := session.current
    start := session.start
    commands := #[.state (.transform transform)]
    gallery := session.gallery }

variable {ratio : Float32} {run : DrawRun} {m : Machine} {outer : List Machine} {r : Resources}
variable {drawForm : Machine.FormDrawing} {ofForm : Resources → Stream → List DrawStep}

@[simp] theorem steps_nil : run.steps ratio [] = run := rfl

theorem steps_cons (s : DrawStep) (rest : List DrawStep) :
    run.steps ratio (s :: rest) = (run.step ratio s).steps ratio rest := rfl

theorem steps_append (first second : List DrawStep) :
    run.steps ratio (first ++ second) = (run.steps ratio first).steps ratio second :=
  List.foldl_append

/-- Whether some steps draw a form as a function does. -/
def Draws (ratio : Float32) (ofForm : Resources → Stream → List DrawStep)
    (drawForm : Machine.FormDrawing) : Prop :=
  ∀ r s (run : DrawRun),
    run.steps ratio (ofForm r s) = { run with machine := drawForm r s run.machine }

theorem steps_ofXObject (h : Draws ratio ofForm drawForm) (s : Stream) (run : DrawRun) :
    run.steps ratio (DrawStep.ofXObject ofForm r s) =
      { run with machine := run.machine.drawXObject drawForm r s } := by
  have hinner (run : DrawRun) :
      run.steps ratio
          (if r.store.entry? Object.name? s.dict "Subtype" = some ("Image" : Name) then [.image r s]
          else if r.store.entry? Object.name? s.dict "Subtype" = some ("Form" : Name) then ofForm r s
          else []) =
        { run with machine :=
            if r.store.entry? Object.name? s.dict "Subtype" = some ("Image" : Name) then
              run.machine.drawImage r s (run.machine.gallery.place s)
            else if r.store.entry? Object.name? s.dict "Subtype" = some ("Form" : Name) then
              drawForm r s run.machine
            else run.machine } := by
    split
    · rfl
    · split
      · exact h r s run
      · rfl
  unfold DrawStep.ofXObject Machine.drawXObject
  cases (s.dict.get? "OC").bind (Membership.ofObject? r.store) with
  | none => exact hinner run
  | some layers =>
    simp only [Option.elim_some, Machine.within]
    rw [List.cons_append, steps_cons, steps_append, hinner]
    rfl

theorem perform_congr {o : Operation} (h : o.xObject? = none) (drawForm other : Machine.FormDrawing) :
    m.perform ratio drawForm r o = m.perform ratio other r o := by
  cases o with
  | xObject n => cases h
  | _ => rfl

theorem steps_ofOperation (h : Draws ratio ofForm drawForm) (o : Operation) (run : DrawRun) :
    run.steps ratio (DrawStep.ofOperation ofForm r o) =
      { run with machine := run.machine.perform ratio drawForm r o } := by
  unfold DrawStep.ofOperation
  split
  · rename_i n hname
    obtain rfl := Operation.eq_xObject hname
    simp only [Machine.perform]
    cases r.xObject? n with
    | none => rfl
    | some s => exact steps_ofXObject h s run
  · rename_i hname
    rw [perform_congr hname drawForm fun _ _ m => m]
    rfl

theorem steps_flatMap (h : Draws ratio ofForm drawForm) (operations : List Operation)
    (run : DrawRun) :
    run.steps ratio (operations.flatMap (DrawStep.ofOperation ofForm r)) =
      { run with machine := operations.foldl (Machine.perform ratio drawForm r) run.machine } := by
  induction operations generalizing run with
  | nil => rfl
  | cons o operations ih => rw [List.flatMap_cons, steps_append, steps_ofOperation h, ih]; rfl

theorem steps_ofContent (h : Draws ratio ofForm drawForm) (content : Bytes) (run : DrawRun) :
    run.steps ratio (DrawStep.ofContent ofForm r content) =
      { run with
        machine := ((Content.instructions content).map Operation.ofInstruction).foldl
          (Machine.perform ratio drawForm r) run.machine } :=
  steps_flatMap h _ run

theorem steps_form (h : Draws ratio ofForm drawForm) (store : Store) (d : Dict) (content : Bytes)
    (run : DrawRun) :
    run.steps ratio (.beginForm store d :: DrawStep.ofContent ofForm r content ++ [.endForm]) =
      { run with machine :=
          run.machine.drawFormContent store d (Machine.execute ratio drawForm r content) } := by
  rw [List.cons_append, steps_cons, steps_append, steps_ofContent h]
  rfl

/-- The steps of forms draw them, up to any number of levels. -/
theorem draws_ofForm (levels : Nat) (active : List Ref) :
    Draws ratio (DrawStep.ofForm levels active) (Machine.drawFormWithin ratio levels active) := by
  induction levels generalizing active with
  | zero => exact fun _ _ _ => rfl
  | succ levels ih =>
    intro r form run
    rw [DrawStep.ofForm, Machine.drawFormWithin]
    split
    · rfl
    · cases form.decoded r.store with
      | error _ => rfl
      | ok content => exact steps_form (ih _) r.store form.dict content run

/-- A page is drawn by taking its steps one after the other. -/
theorem draw_eq (session : DrawSession) (config : ImageConfig) (r : Resources) (transform : Affine)
    (content : Bytes) :
    session.draw config r transform content =
      let m := ((start session transform).steps config.blackRatio (DrawStep.ofPage r content)).machine
      (m.commands.toList, ⟨m.gallery, m.current, m.start⟩) := by
  have hforms : Draws config.blackRatio (DrawStep.ofForm Machine.maxFormLevels [])
      (Machine.drawFormWithin config.blackRatio Machine.maxFormLevels []) := draws_ofForm _ _
  rw [DrawStep.ofPage, steps_append, steps_ofContent hforms]
  rfl

theorem steps_ofPage (session : DrawSession) (config : ImageConfig) (r : Resources)
    (transform : Affine) (content : Bytes) :
    (session.draw config r transform content).1 =
      ((start session transform).steps config.blackRatio
        (DrawStep.ofPage r content)).machine.commands.toList := by
  rw [draw_eq]

end DrawRun

end Folio
