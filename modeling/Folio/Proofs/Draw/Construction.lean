import Folio.Proofs.Draw.Mask

/-!
# The path around a form

A form is drawn without the path that is under construction around it, and afterwards this path and its
pending clip are what they were. The current point and the start of the last part of the path are not: they
stay where the content of the form has moved them. Main statement: `leavesPathAlone_iff`, a path goes on
after an external object as without it exactly if none of the steps of the object moves the points.

What the points are afterwards is computed step by step (`DrawRun.points_steps`). That nothing else matters
to the paths drawn later is a property of functions that is closed under composition
(`Machine.FollowsConstruction`).
-/

namespace Folio

/-- Where a path has come to, and where its last part began. -/
structure PathPoints where
  current : Point
  start : Point

/-- All that the construction of a path depends on. -/
structure Construction where
  path : Path
  points : PathPoints
  pendingClip : Option FillRule

/-- Whether a command draws a path, or clips with one. -/
def DrawCommand.hasPath : DrawCommand → Bool
  | .fill _ _ | .stroke _ | .state (.clip _ _) => true
  | _ => false

namespace Operation

/-- Whether an operation closes the last part of a path. -/
def closesPath : Operation → Bool
  | .closePath | .paint true _ _ => true
  | _ => false

/-- Whether an operation moves the current point. -/
def movesPoint (o : Operation) : Bool := o.beginsPath || o.continuesPath || o.closesPath

/-- Whether an operation extends, draws or ends a path. -/
def concernsPath : Operation → Bool
  | .paint _ _ _ | .endPath | .clip _ => true
  | o => o.movesPoint

/-- The points after an operation. -/
def movePoints : Operation → PathPoints → PathPoints
  | .move p, _ | .rectangle p _, _ => ⟨p, p⟩
  | .line p, points | .curve _ _ p, points | .curveFromCurrent _ p, points => { points with current := p }
  | .closePath, points | .paint true _ _, points => { points with current := points.start }
  | _, points => points

theorem movePoints_eq_self {o : Operation} (h : o.movesPoint = false) (points : PathPoints) :
    o.movePoints points = points := by
  cases o with
  | move | rectangle | line | curve | curveFromCurrent | closePath => cases h
  | paint close fill stroke =>
    cases close with
    | false => rfl
    | true => cases h
  | _ => rfl

/-- Where the points are after an operation does not depend on the current point if the operation moves it. -/
theorem movePoints_congr {o : Operation} (h : o.movesPoint = true) {p q : PathPoints}
    (hstart : p.start = q.start) : o.movePoints p = o.movePoints q := by
  obtain ⟨current, start⟩ := p
  obtain rfl : start = q.start := hstart
  cases o with
  | move | rectangle | line | curve | curveFromCurrent | closePath => rfl
  | paint close fill stroke =>
    cases close with
    | false => cases h
    | true => rfl
  | _ => cases h

end Operation

namespace DrawStep

/-- Whether a step moves the current point. -/
def movesPoint : DrawStep → Bool
  | .perform _ o _ => o.movesPoint
  | _ => false

/-- The points after a step. -/
def movePoints : DrawStep → PathPoints → PathPoints
  | .perform _ o _, points => o.movePoints points
  | _, points => points

/-- The points after some steps. -/
def movePointsAll (steps : List DrawStep) (points : PathPoints) : PathPoints :=
  steps.foldl (fun points s => s.movePoints points) points

theorem movePoints_eq_self {s : DrawStep} (h : s.movesPoint = false) (points : PathPoints) :
    s.movePoints points = points := by
  cases s with
  | perform r o hname => exact Operation.movePoints_eq_self h points
  | _ => rfl

theorem movePoints_congr {s : DrawStep} (h : s.movesPoint = true) {p q : PathPoints}
    (hstart : p.start = q.start) : s.movePoints p = s.movePoints q := by
  cases s with
  | perform r o hname => exact Operation.movePoints_congr h hstart
  | _ => cases h

theorem movePointsAll_eq_self {steps : List DrawStep} (h : ∀ s ∈ steps, s.movesPoint = false)
    (points : PathPoints) : movePointsAll steps points = points := by
  induction steps with
  | nil => rfl
  | cons s steps ih =>
    obtain ⟨hs, hsteps⟩ := List.forall_mem_cons.mp h
    exact (congrArg (movePointsAll steps) (movePoints_eq_self hs points)).trans (ih hsteps)

theorem movePointsAll_congr {steps : List DrawStep} {s : DrawStep} (hs : s ∈ steps)
    (h : s.movesPoint = true) {p q : PathPoints} (hstart : p.start = q.start) :
    movePointsAll steps p = movePointsAll steps q := by
  induction steps generalizing p q with
  | nil => cases hs
  | cons first steps ih =>
    by_cases hfirst : first.movesPoint = true
    · exact congrArg (movePointsAll steps) (movePoints_congr hfirst hstart)
    · -- The points have not moved yet.
      have hsame (points : PathPoints) : first.movePoints points = points :=
        movePoints_eq_self (Bool.eq_false_of_not_eq_true hfirst) points
      have hrest : s ∈ steps := (List.mem_cons.mp hs).resolve_left fun heq => hfirst (heq ▸ h)
      have hunmoved : (first.movePoints p).start = (first.movePoints q).start := by
        rw [hsame, hsame, hstart]
      exact ih hrest hunmoved

/-- Steps that leave all points where they are do not move them on the way either. -/
theorem movesPoint_eq_false {steps : List DrawStep} (h : ∀ points, movePointsAll steps points = points)
    {s : DrawStep} (hs : s ∈ steps) : s.movesPoint = false := by
  refine Bool.eq_false_of_not_eq_true fun hmoves => ?_
  have hall : movePointsAll steps ⟨⟨0, 0⟩, .origin⟩ = movePointsAll steps ⟨⟨1, 0⟩, .origin⟩ :=
    movePointsAll_congr hs hmoves rfl
  rw [h, h] at hall
  have hbits : Float.toBits 0 = Float.toBits 1 := congrArg (fun p => p.current.x.toBits) hall
  revert hbits
  decide

end DrawStep

namespace Machine

variable {m n : Machine} {ratio : Float32} {drawForm : FormDrawing} {r : Resources}

/-- The points of the path. -/
def points (m : Machine) : PathPoints := ⟨m.current, m.start⟩

/-- The construction of the path. -/
def construction (m : Machine) : Construction := ⟨m.path, m.points, m.pendingClip⟩

/-- The commands that draw a path, or clip with one. -/
def paths (m : Machine) : List DrawCommand := m.commands.toList.filter DrawCommand.hasPath

theorem paths_emit (c : DrawCommand) (m : Machine) :
    (m.emit c).paths = m.paths ++ [c].filter DrawCommand.hasPath := by
  simp [paths, emit]

/-! ## What leaves paths alone -/

/-- Whether neither the construction of the path nor the paths drawn so far are different. -/
structure PathFrame (before after : Machine) : Prop where
  construction : after.construction = before.construction
  paths : after.paths = before.paths

theorem PathFrame.refl (m : Machine) : PathFrame m m := ⟨rfl, rfl⟩

theorem PathFrame.trans {l m n : Machine} (first : PathFrame l m) (second : PathFrame m n) :
    PathFrame l n :=
  ⟨second.construction.trans first.construction, second.paths.trans first.paths⟩

theorem pathFrame_of_push {c : DrawCommand} (hconstruction : n.construction = m.construction)
    (hcommands : n.commands = m.commands.push c) (hc : c.hasPath = false) : PathFrame m n :=
  ⟨hconstruction, by simp [paths, hcommands, hc]⟩

theorem pathFrame_save (m : Machine) : PathFrame m m.save := pathFrame_of_push rfl rfl rfl

theorem pathFrame_restore (m : Machine) : PathFrame m m.restore := by
  unfold restore
  cases m.saved with
  | nil => exact .refl m
  | cons s rest => exact pathFrame_of_push rfl rfl rfl

theorem pathFrame_concat (t : Affine) (m : Machine) : PathFrame m (m.concat t) :=
  pathFrame_of_push rfl rfl rfl

theorem pathFrame_restyle (change : StrokeStyle → StrokeStyle) (m : Machine) :
    PathFrame m (m.changeStyle change).emitStyle :=
  pathFrame_of_push rfl rfl rfl

theorem pathFrame_setColor (stroke : Bool) (space : ColorSpace) (components : List Float32)
    (m : Machine) : PathFrame m (m.setColor ratio stroke space components) := by
  cases stroke with
  | true => exact pathFrame_of_push rfl rfl rfl
  | false => exact pathFrame_of_push rfl rfl rfl

theorem pathFrame_setAlpha (stroke : Bool) (value : Float32) (m : Machine) :
    PathFrame m (m.setAlpha stroke value) :=
  pathFrame_of_push rfl rfl rfl

theorem pathFrame_drawImage (s : Stream) (placed : Nat × Gallery) (m : Machine) :
    PathFrame m (m.drawImage r s placed) :=
  pathFrame_of_push rfl rfl rfl

theorem pathFrame_beginMarked (membership : Option Membership) (m : Machine) :
    PathFrame m (m.beginMarked membership) := by
  cases membership with
  | none => exact ⟨rfl, rfl⟩
  | some layers => exact pathFrame_of_push rfl rfl rfl

theorem pathFrame_endMarked (m : Machine) : PathFrame m m.endMarked := by
  unfold endMarked
  cases m.marked with
  | nil => exact .refl m
  | cons layered rest =>
    cases layered with
    | false => exact ⟨rfl, rfl⟩
    | true => exact pathFrame_of_push rfl rfl rfl

theorem pathFrame_elim {α : Type} {f : α → Machine} (h : ∀ a, PathFrame m (f a)) (a : Option α) :
    PathFrame m (a.elim m f) := by
  cases a with
  | none => exact .refl m
  | some a => exact h a

theorem pathFrame_applyOpacities (store : Store) (d : Dict) (m : Machine) :
    PathFrame m (m.applyOpacities store d) := by
  have halpha (stroke : Bool) (value : Option Float32) (m : Machine) :
      PathFrame m (value.elim m (m.setAlpha stroke)) :=
    pathFrame_elim (fun value => pathFrame_setAlpha stroke value m) value
  unfold applyOpacities
  refine (PathFrame.trans ?_ (halpha true _ _)).trans (halpha false _ _)
  cases store.entry? Object.bool? d "AIS" with
  | none => exact .refl m
  | some alphaIsShape => exact ⟨rfl, rfl⟩

theorem pathFrame_applyParameters (store : Store) (d : Dict) (m : Machine) :
    PathFrame m (m.applyParameters store d) := by
  refine (pathFrame_applyOpacities store d m).trans ?_
  rw [applyParameters_eq, foldl_changeStyle]
  generalize m.applyOpacities store d = n
  have hchanged (change : StrokeStyle → StrokeStyle) : PathFrame n (n.changeStyle change) := ⟨rfl, rfl⟩
  dsimp only
  split
  · split
    · exact hchanged _
    · exact pathFrame_restyle _ n
  · split
    · exact (hchanged _).trans (pathFrame_restyle _ _)
    · exact hchanged _

theorem pathFrame_foldl {α : Type} {f : Machine → Machine} (h : ∀ m, PathFrame m (f m)) (l : List α)
    (m : Machine) : PathFrame m (l.foldl (fun m _ => f m) m) := by
  induction l generalizing m with
  | nil => exact .refl m
  | cons _ l ih => exact (h m).trans (ih (f m))

theorem pathFrame_close (m : Machine) : PathFrame m m.close :=
  (pathFrame_foldl pathFrame_endMarked m.marked m).trans (pathFrame_foldl pathFrame_restore _ _)

theorem pathFrame_perform {o : Operation} (hname : o.xObject? = none) (h : o.concernsPath = false)
    (m : Machine) : PathFrame m (m.perform ratio drawForm r o) := by
  cases o with
  | xObject => cases hname
  | move | line | curve | curveFromCurrent | closePath | rectangle | paint | endPath | clip => cases h
  | save => exact pathFrame_save m
  | restore => exact pathFrame_restore m
  | concat t => exact pathFrame_concat t m
  | restyle change => exact pathFrame_restyle change m
  | setColor stroke space components => exact pathFrame_setColor stroke space components m
  | selectSpace stroke o => exact pathFrame_elim (fun space => pathFrame_setColor stroke space _ m) _
  | changeColor stroke components => exact pathFrame_setColor stroke _ components m
  | graphicsState n => exact pathFrame_elim (fun d => pathFrame_applyParameters r.store d m) _
  | inlineImage s => exact pathFrame_drawImage s _ m
  | beginMarked => exact pathFrame_beginMarked none m
  | beginLayer properties => exact pathFrame_beginMarked _ m
  | endMarked => exact pathFrame_endMarked m
  | nothing => exact .refl m

/-! ## What depends on the construction alone -/

/-- Whether the construction after `f`, and the paths that `f` draws, follow from the construction before. -/
def FollowsConstruction (f : Machine → Machine) : Prop :=
  ∃ (next : Construction → Construction) (drawn : Construction → List DrawCommand),
    ∀ m, (f m).construction = next m.construction ∧ (f m).paths = m.paths ++ drawn m.construction

theorem followsConstruction_of_paths {f : Machine → Machine} (next : Construction → Construction)
    (hnext : ∀ m, (f m).construction = next m.construction) (hpaths : ∀ m, (f m).paths = m.paths) :
    FollowsConstruction f :=
  ⟨next, fun _ => [], fun m => ⟨hnext m, (hpaths m).trans (List.append_nil m.paths).symm⟩⟩

theorem followsConstruction_of_pathFrame {f : Machine → Machine} (h : ∀ m, PathFrame m (f m)) :
    FollowsConstruction f :=
  followsConstruction_of_paths id (fun m => (h m).construction) fun m => (h m).paths

theorem FollowsConstruction.comp {f g : Machine → Machine} (hf : FollowsConstruction f)
    (hg : FollowsConstruction g) : FollowsConstruction fun m => g (f m) := by
  obtain ⟨next, drawn, hf⟩ := hf
  obtain ⟨next', drawn', hg⟩ := hg
  refine ⟨fun c => next' (next c), fun c => drawn c ++ drawn' (next c), fun m => ?_⟩
  obtain ⟨hconstruction, hpaths⟩ := hf m
  obtain ⟨hconstruction', hpaths'⟩ := hg (f m)
  rw [hconstruction', hpaths', hconstruction, hpaths, List.append_assoc]
  exact ⟨rfl, rfl⟩

theorem followsConstruction_foldl {α : Type} {f : Machine → α → Machine}
    (h : ∀ a, FollowsConstruction fun m => f m a) (l : List α) :
    FollowsConstruction fun m => l.foldl f m := by
  induction l with
  | nil => exact followsConstruction_of_pathFrame .refl
  | cons a l ih => exact (h a).comp ih

theorem followsConstruction_emit (c : Construction → DrawCommand) :
    FollowsConstruction fun m => m.emit (c m.construction) :=
  ⟨id, fun k => [c k].filter DrawCommand.hasPath, fun m => ⟨rfl, paths_emit _ m⟩⟩

/-- A function that chooses by the construction between two that follow it. -/
theorem FollowsConstruction.ite {f g : Machine → Machine} (hf : FollowsConstruction f)
    (hg : FollowsConstruction g) (p : Construction → Bool) :
    FollowsConstruction fun m => if p m.construction = true then f m else g m := by
  obtain ⟨next, drawn, hf⟩ := hf
  obtain ⟨next', drawn', hg⟩ := hg
  refine ⟨fun c => if p c = true then next c else next' c,
    fun c => if p c = true then drawn c else drawn' c, fun m => ?_⟩
  dsimp only
  split
  · exact hf m
  · exact hg m

theorem followsConstruction_closePath : FollowsConstruction closePath :=
  followsConstruction_of_paths
    (fun c => ⟨if c.path.isEmpty then c.path else c.path.push .close, ⟨c.points.start, c.points.start⟩,
      c.pendingClip⟩)
    (fun _ => rfl) (fun _ => rfl)

theorem followsConstruction_endPath : FollowsConstruction endPath := by
  refine ⟨fun c => ⟨#[], c.points, none⟩,
    fun c => (c.pendingClip.map fun rule => .state (.clip c.path rule)).toList, fun m => ?_⟩
  obtain ⟨_, _, _, _, path, _, _, pendingClip, _⟩ := m
  cases pendingClip with
  | none => exact ⟨rfl, (List.append_nil _).symm⟩
  | some rule => exact ⟨rfl, paths_emit _ _⟩

theorem followsConstruction_paint (fill : Option FillRule) (stroke : Bool) :
    FollowsConstruction (paint fill stroke) := by
  have hfilled : FollowsConstruction fun m => fill.elim m fun rule => m.emit (.fill m.path rule) := by
    cases fill with
    | none => exact followsConstruction_of_pathFrame .refl
    | some rule => exact followsConstruction_emit fun c => .fill c.path rule
  have hpath (m : Machine) : (fill.elim m fun rule => m.emit (.fill m.path rule)).path = m.path := by
    cases fill <;> rfl
  have hpainted : FollowsConstruction fun m =>
      if stroke then (fill.elim m fun rule => m.emit (.fill m.path rule)).emit (.stroke m.path)
      else fill.elim m fun rule => m.emit (.fill m.path rule) := by
    cases stroke with
    | false => exact hfilled
    | true =>
      have hstroked := hfilled.comp (followsConstruction_emit fun c => .stroke c.path)
      simpa only [construction, hpath, if_true] using hstroked
  exact followsConstruction_endPath.ite (hpainted.comp followsConstruction_endPath)
    fun c => c.path.isEmpty

theorem followsConstruction_extend (step : Construction → PathStep) (target : Point) :
    FollowsConstruction fun m => m.extend (step m.construction) target :=
  followsConstruction_of_paths
    (fun c => ⟨(if c.path.isEmpty then #[.move c.points.current] else c.path).push (step c),
      ⟨target, c.points.start⟩, c.pendingClip⟩)
    (fun _ => rfl) (fun _ => rfl)

theorem followsConstruction_elim {α : Type} {f : α → Machine → Machine}
    (h : ∀ a, FollowsConstruction (f a)) (a : Option α) :
    FollowsConstruction fun m => a.elim m fun a => f a m := by
  cases a with
  | none => exact followsConstruction_of_pathFrame .refl
  | some a => exact h a

/-! ## Operations, content streams and forms -/

theorem followsConstruction_drawXObject (hform : ∀ r s, FollowsConstruction (drawForm r s))
    (s : Stream) : FollowsConstruction (drawXObject drawForm r s) := by
  have hinner : FollowsConstruction fun m =>
      if r.store.entry? Object.name? s.dict "Subtype" = some ("Image" : Name) then
        m.drawImage r s (m.gallery.place s)
      else if r.store.entry? Object.name? s.dict "Subtype" = some ("Form" : Name) then drawForm r s m
      else m := by
    split
    · exact followsConstruction_of_pathFrame fun m => pathFrame_drawImage s _ m
    · split
      · exact hform r s
      · exact followsConstruction_of_pathFrame .refl
  unfold drawXObject
  cases (s.dict.get? "OC").bind (Membership.ofObject? r.store) with
  | none => exact hinner
  | some layers =>
    have hpushed := (followsConstruction_emit fun _ => .pushLayer layers).comp hinner
    exact hpushed.comp (followsConstruction_emit fun _ => .popLayer)

/-- What an operation does to a path follows from the construction of the path alone, if this holds of
drawing a form. -/
theorem followsConstruction_perform (ratio : Float32) (r : Resources)
    (hform : ∀ r s, FollowsConstruction (drawForm r s)) (o : Operation) :
    FollowsConstruction fun m => m.perform ratio drawForm r o := by
  cases o with
  | move p =>
    exact followsConstruction_of_paths (fun c => ⟨c.path.push (.move p), ⟨p, p⟩, c.pendingClip⟩)
      (fun _ => rfl) (fun _ => rfl)
  | line p => exact followsConstruction_extend (fun _ => .line p) p
  | curve c1 c2 p => exact followsConstruction_extend (fun _ => .curve c1 c2 p) p
  | curveFromCurrent c2 p => exact followsConstruction_extend (fun c => .curve c.points.current c2 p) p
  | closePath => exact followsConstruction_closePath
  | rectangle p q =>
    exact followsConstruction_of_paths (fun c => ⟨c.path ++ Path.rectangle p q, ⟨p, p⟩, c.pendingClip⟩)
      (fun _ => rfl) (fun _ => rfl)
  | paint close fill stroke =>
    cases close with
    | false => exact followsConstruction_paint fill stroke
    | true => exact followsConstruction_closePath.comp (followsConstruction_paint fill stroke)
  | endPath => exact followsConstruction_endPath
  | clip rule =>
    exact followsConstruction_of_paths (fun c => { c with pendingClip := some rule })
      (fun _ => rfl) (fun _ => rfl)
  | xObject n => exact followsConstruction_elim (fun s => followsConstruction_drawXObject hform s) _
  | _ => exact followsConstruction_of_pathFrame fun m => pathFrame_perform rfl rfl m

theorem followsConstruction_execute (hform : ∀ r s, FollowsConstruction (drawForm r s))
    (content : Bytes) : FollowsConstruction (execute ratio drawForm r content) :=
  (followsConstruction_foldl (followsConstruction_perform ratio r hform) _).comp
    (followsConstruction_of_pathFrame pathFrame_close)

theorem followsConstruction_surround (store : Store) (d : Dict) :
    FollowsConstruction (surround store d) := by
  have hsaved := followsConstruction_of_pathFrame pathFrame_save
  have htransformed := hsaved.comp
    (followsConstruction_of_pathFrame (pathFrame_concat (formTransform store d)))
  exact htransformed.comp (followsConstruction_elim
    (fun box => followsConstruction_emit fun _ => .state (.clip box .nonzero)) (formBox? store d))

theorem followsConstruction_drawFormContent {draw : Machine → Machine} (h : FollowsConstruction draw)
    (store : Store) (d : Dict) : FollowsConstruction (drawFormContent store d draw) := by
  obtain ⟨next, drawn, h⟩ := h
  have hinside : FollowsConstruction fun m => (draw m.enter).leave m := by
    refine ⟨fun c => { c with points := (next ⟨#[], c.points, none⟩).points },
      fun c => drawn ⟨#[], c.points, none⟩, fun m => ?_⟩
    obtain ⟨hconstruction, hpaths⟩ := h m.enter
    have hpoints : (draw m.enter).points = (next ⟨#[], m.points, none⟩).points :=
      congrArg Construction.points hconstruction
    exact ⟨congrArg (fun points => Construction.mk m.path points m.pendingClip) hpoints, hpaths⟩
  exact ((followsConstruction_surround store d).comp hinside).comp
    (followsConstruction_of_pathFrame pathFrame_restore)

theorem followsConstruction_drawFormWithin (ratio : Float32) (levels : Nat) (active : List Ref)
    (r : Resources) (form : Stream) :
    FollowsConstruction (drawFormWithin ratio levels active r form) := by
  induction levels generalizing active r form with
  | zero => exact followsConstruction_of_pathFrame .refl
  | succ levels ih =>
    change FollowsConstruction fun m => drawFormWithin ratio (levels + 1) active r form m
    simp only [drawFormWithin]
    split
    · exact followsConstruction_of_pathFrame .refl
    · cases form.decoded r.store with
      | error _ => exact followsConstruction_of_pathFrame .refl
      | ok content =>
        exact followsConstruction_drawFormContent (followsConstruction_execute (ih _) content) _ _

/-! ## The points -/

theorem points_endPath (m : Machine) : m.endPath.points = m.points := by
  obtain ⟨_, _, _, _, _, _, _, pendingClip, _⟩ := m
  cases pendingClip <;> rfl

theorem points_paint (fill : Option FillRule) (stroke : Bool) (m : Machine) :
    (m.paint fill stroke).points = m.points := by
  have hfilled : (fill.elim m fun rule => m.emit (.fill m.path rule)).points = m.points := by
    cases fill <;> rfl
  unfold paint
  split
  · exact points_endPath m
  · rw [points_endPath, ← hfilled]
    cases stroke <;> rfl

theorem points_perform {o : Operation} (hname : o.xObject? = none) (m : Machine) :
    (m.perform ratio drawForm r o).points = o.movePoints m.points := by
  cases o with
  | xObject => cases hname
  | move | line | curve | curveFromCurrent | closePath | rectangle | clip => rfl
  | paint close fill stroke =>
    cases close with
    | false => exact points_paint fill stroke m
    | true => exact points_paint fill stroke m.closePath
  | endPath => exact points_endPath m
  | _ => exact congrArg Construction.points (pathFrame_perform rfl rfl m).construction

theorem construction_surround (store : Store) (d : Dict) (m : Machine) :
    (m.surround store d).construction = m.construction := by
  have htransformed : (m.save.concat (formTransform store d)).construction = m.construction :=
    ((pathFrame_save m).trans (pathFrame_concat _ _)).construction
  unfold surround
  cases formBox? store d with
  | none => exact htransformed
  | some box => exact htransformed

/-! ## What drawing an external object keeps -/

/-- Whether the path and its pending clip are the same, but perhaps not the points. -/
def KeepsPath (before after : Machine) : Prop :=
  after.construction = { before.construction with points := after.points }

theorem keepsPath_of_pathFrame (h : PathFrame m n) : KeepsPath m n := by
  have hpoints : n.points = m.points := congrArg Construction.points h.construction
  rw [KeepsPath, h.construction, hpoints]
  rfl

/-- Whatever the content of a form does, the path and its pending clip are as before. -/
theorem keepsPath_drawFormContent (store : Store) (d : Dict) (draw : Machine → Machine) (m : Machine) :
    KeepsPath m (m.drawFormContent store d draw) := by
  let inside := draw (m.surround store d).enter
  have hrestored : (m.drawFormContent store d draw).construction =
      { (m.surround store d).construction with points := inside.points } :=
    (pathFrame_restore (inside.leave (m.surround store d))).construction
  have hpoints : (m.drawFormContent store d draw).points = inside.points :=
    congrArg Construction.points hrestored
  rw [KeepsPath, hrestored, hpoints, construction_surround]

theorem keepsPath_drawFormWithin (ratio : Float32) (levels : Nat) (active : List Ref) (r : Resources)
    (form : Stream) (m : Machine) : KeepsPath m (drawFormWithin ratio levels active r form m) := by
  cases levels with
  | zero => rfl
  | succ levels =>
    rw [drawFormWithin]
    split
    · rfl
    · cases form.decoded r.store with
      | error _ => rfl
      | ok content => exact keepsPath_drawFormContent _ _ _ m

theorem keepsPath_drawXObject (hform : ∀ r s m, KeepsPath m (drawForm r s m)) (s : Stream)
    (m : Machine) : KeepsPath m (m.drawXObject drawForm r s) := by
  have hinner (m : Machine) : KeepsPath m
      (if r.store.entry? Object.name? s.dict "Subtype" = some ("Image" : Name) then
        m.drawImage r s (m.gallery.place s)
      else if r.store.entry? Object.name? s.dict "Subtype" = some ("Form" : Name) then drawForm r s m
      else m) := by
    split
    · exact keepsPath_of_pathFrame (pathFrame_drawImage s _ m)
    · split
      · exact hform r s m
      · rfl
  unfold drawXObject
  cases (s.dict.get? "OC").bind (Membership.ofObject? r.store) with
  | none => exact hinner m
  | some layers => exact hinner (m.emit (.pushLayer layers))

theorem keepsPath_xObject (hform : ∀ r s m, KeepsPath m (drawForm r s m)) (ratio : Float32)
    (r : Resources) (n : Name) (m : Machine) :
    KeepsPath m (m.perform ratio drawForm r (.xObject n)) := by
  simp only [perform]
  cases r.xObject? n with
  | none => rfl
  | some s => exact keepsPath_drawXObject hform s m

end Machine

namespace DrawRun

theorem points_step (ratio : Float32) (s : DrawStep) (run : DrawRun) :
    (run.step ratio s).machine.points = s.movePoints run.machine.points := by
  cases s with
  | perform r o hname => exact Machine.points_perform hname _
  | beginForm store d =>
    exact congrArg Construction.points (Machine.construction_surround store d run.machine)
  | endForm =>
    obtain ⟨m, outer⟩ := run
    cases outer with
    | nil => rfl
    | cons n outer =>
      -- Leaving the form keeps the points of its content.
      have hclosed : m.close.points = m.points :=
        congrArg Construction.points (Machine.pathFrame_close m).construction
      have hrestored : (m.close.leave n).restore.points = m.close.points :=
        congrArg Construction.points (Machine.pathFrame_restore (m.close.leave n)).construction
      exact hrestored.trans hclosed
  | endPage => exact congrArg Construction.points (Machine.pathFrame_close run.machine).construction
  | beginLayers | endLayers | image => rfl

theorem points_steps (ratio : Float32) (steps : List DrawStep) (run : DrawRun) :
    (run.steps ratio steps).machine.points = DrawStep.movePointsAll steps run.machine.points := by
  induction steps generalizing run with
  | nil => rfl
  | cons s steps ih =>
    rw [steps_cons, ih, points_step]
    rfl

end DrawRun

namespace Machine

/-- Whether a machine that draws an external object leaves the construction of the path alone, and draws the
same paths in all operations that follow as without it. -/
def LeavesPathAlone (perform : Machine → Operation → Machine) (n : Name) (m : Machine) : Prop :=
  (perform m (.xObject n)).construction = m.construction ∧
    ∀ later : List Operation, ∃ drawn,
      (later.foldl perform (perform m (.xObject n))).paths = (perform m (.xObject n)).paths ++ drawn ∧
      (later.foldl perform m).paths = m.paths ++ drawn

variable {ratio : Float32} {levels : Nat} {active : List Ref} {r : Resources} {n : Name} {m : Machine}

theorem construction_xObject (ratio : Float32) (levels : Nat) (active : List Ref) (r : Resources)
    (n : Name) (m : Machine) :
    (m.perform ratio (drawFormWithin ratio levels active) r (.xObject n)).construction =
      { m.construction with
        points := DrawStep.movePointsAll
          (DrawStep.ofOperation (DrawStep.ofForm levels active) r (.xObject n)) m.points } := by
  have hkept := keepsPath_xObject (keepsPath_drawFormWithin ratio levels active) ratio r n m
  rw [hkept, ← DrawRun.points_steps ratio _ ⟨m, []⟩,
    DrawRun.steps_ofOperation (DrawRun.draws_ofForm levels active)]

theorem leavesPathAlone_of_construction
    (h : (m.perform ratio (drawFormWithin ratio levels active) r (.xObject n)).construction =
      m.construction) :
    LeavesPathAlone (perform ratio (drawFormWithin ratio levels active) r) n m := by
  refine ⟨h, fun later => ?_⟩
  have hforms := followsConstruction_drawFormWithin ratio levels active
  obtain ⟨_, drawn, hlater⟩ := followsConstruction_foldl (followsConstruction_perform ratio r hforms) later
  refine ⟨drawn m.construction, ?_, (hlater m).2⟩
  rw [(hlater _).2, h]

theorem leavesPathAlone_iff_points :
    LeavesPathAlone (perform ratio (drawFormWithin ratio levels active) r) n m ↔
      DrawStep.movePointsAll (DrawStep.ofOperation (DrawStep.ofForm levels active) r (.xObject n)) m.points =
        m.points := by
  have hafter := construction_xObject ratio levels active r n m
  constructor
  · rintro ⟨hsame, -⟩
    exact congrArg Construction.points (hafter.symm.trans hsame)
  · intro hpoints
    refine leavesPathAlone_of_construction ?_
    rw [hafter, hpoints]
    rfl

/-- After an external object has been drawn, the path and its pending clip are as before and its points are
where the steps of the object have moved them. So exactly the machines whose points come back to where they
were go on as if nothing had been drawn, and all machines do exactly if no step moves the points. -/
theorem leavesPathAlone_iff (ratio : Float32) (levels : Nat) (active : List Ref) (r : Resources)
    (n : Name) :
    let perform := perform ratio (drawFormWithin ratio levels active) r
    let steps := DrawStep.ofOperation (DrawStep.ofForm levels active) r (.xObject n)
    (∀ m, (perform m (.xObject n)).construction =
      { m.construction with points := DrawStep.movePointsAll steps m.points }) ∧
    (∀ m, LeavesPathAlone perform n m ↔ DrawStep.movePointsAll steps m.points = m.points) ∧
    ((∀ m, LeavesPathAlone perform n m) ↔ ∀ s ∈ steps, s.movesPoint = false) := by
  refine ⟨construction_xObject ratio levels active r n, fun m => leavesPathAlone_iff_points, ?_, ?_⟩
  · intro h s hs
    refine DrawStep.movesPoint_eq_false (fun points => ?_) hs
    exact leavesPathAlone_iff_points.mp
      (h { state := { ctm := .identity }, current := points.current, start := points.start })
  · intro h m
    exact leavesPathAlone_iff_points.mpr (DrawStep.movePointsAll_eq_self h m.points)

/-- A form that closes the last part of a path. -/
def closingForm : Stream where
  dict := .ofList [("Length", .ofInt 1), ("Subtype", .name "Form")]
  data := .ofAscii "h"
  reference := some ⟨1, 0⟩

/-- Resources in which the form has the name `F`. -/
def closingForms : Resources :=
  .ofDict { objects := [(⟨1, 0⟩, .stream closingForm)] }
    (.ofList [("XObject", .dict (.ofList [("F", .ref ⟨1, 0⟩)]))])

/-- A machine that has drawn a line of a path. -/
def lineMachine : Machine where
  state := { ctm := .identity }
  path := #[.move .origin, .line ⟨1, 0⟩]
  current := ⟨1, 0⟩

/-- A form that closes a part of a path takes the path around it back to where it began. -/
theorem not_forall_leavesPathAlone :
    ¬ ∀ (ratio : Float32) (levels : Nat) (active : List Ref) (r : Resources) (n : Name) (m : Machine),
      LeavesPathAlone (perform ratio (drawFormWithin ratio levels active) r) n m := by
  intro h
  have hcurrent : Point.origin = ⟨1, 0⟩ :=
    congrArg (fun c => c.points.current) (h 0.5 1 [] closingForms "F" lineMachine).1
  have hbits : Float.toBits 0 = Float.toBits 1 := congrArg (fun p => p.x.toBits) hcurrent
  revert hbits
  decide

end Machine

end Folio
