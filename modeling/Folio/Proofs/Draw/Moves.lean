import Folio.Proofs.Draw.Steps

/-!
# What a machine does at once

Everything that a machine does while a content stream is executed is a sequence of moves, each of which
notes at most one command (`Machine.Move`). So what holds of every move holds of every operation that
draws no external object (`moves_perform`), and of the end of a content stream (`moves_close`).

A move may change the style of lines without a command, which happens only for a graphics state whose
pattern of dashes cannot be read (`hidesStyle`).
-/

namespace Folio

namespace DrawCommand

/-- Whether a command puts something on the canvas. -/
def paints : DrawCommand → Bool
  | .fill _ _ | .stroke _ | .image _ _ _ _ => true
  | _ => false

end DrawCommand

namespace Operation

/-- Whether an operation puts something on the canvas, other than an external object. -/
def paints : Operation → Prop
  | .paint _ _ _ | .inlineImage _ => True
  | _ => False

end Operation

/-- The parts of a machine that its commands account for. -/
structure Machine.Outline where
  ctm : Affine
  fill : Rgb
  style : StrokeStyle
  saved : List GraphicsState
  enclosing : List GraphicsState
  marked : List Bool
  commands : Array DrawCommand

namespace Machine

/-- The parts of the machine that its commands account for. -/
def outline (m : Machine) : Outline :=
  ⟨m.state.ctm, m.state.fill, m.state.style, m.saved, m.enclosing, m.marked, m.commands⟩

/-- What a machine does at once; `painting` says whether it may paint, and `silent` whether it may change
the style of lines without noting that. -/
inductive Move (painting silent : Prop) : Machine → Machine → Prop where
  /-- Nothing changes that commands account for. -/
  | inner {m n : Machine} (h : n.outline = m.outline) : Move painting silent m n
  | paint (m : Machine) (c : DrawCommand) (hc : c.paints = true) (h : painting) :
    Move painting silent m (m.emit c)
  | alpha (m : Machine) (value : Float32) (stroke paint : Bool) :
    Move painting silent m (m.emit (.alpha value stroke paint))
  | clip (m : Machine) (path : Path) (rule : FillRule) :
    Move painting silent m (m.emit (.state (.clip path rule)))
  | concat (m : Machine) (t : Affine) : Move painting silent m (m.concat t)
  | setColor (m : Machine) (ratio : Float32) (stroke : Bool) (space : ColorSpace)
    (components : List Float32) :
    Move painting silent m (m.setColor ratio stroke space components)
  | restyle (m : Machine) (change : StrokeStyle → StrokeStyle) :
    Move painting silent m (m.changeStyle change).emitStyle
  | hide (m : Machine) (change : StrokeStyle → StrokeStyle) (h : silent) :
    Move painting silent m (m.changeStyle change)
  | save (m : Machine) : Move painting silent m m.save
  | restore (m : Machine) : Move painting silent m m.restore
  | beginMarked (m : Machine) (membership : Option Membership) :
    Move painting silent m (m.beginMarked membership)
  | endMarked (m : Machine) : Move painting silent m m.endMarked

/-- A sequence of moves. -/
abbrev Moves (painting silent : Prop) : Machine → Machine → Prop :=
  Relation.ReflTransGen (Move painting silent)

variable {painting silent : Prop} {m n : Machine}

theorem Move.moves (h : Move painting silent m n) : Moves painting silent m n := .single h

theorem moves_of_outline (h : n.outline = m.outline) : Moves painting silent m n := (Move.inner h).moves

/-! ## Paths -/

theorem moves_endPath (m : Machine) : Moves painting silent m m.endPath := by
  have hended : Moves painting silent m { m with path := #[], pendingClip := none } :=
    moves_of_outline rfl
  unfold endPath
  cases m.pendingClip with
  | none => exact hended
  | some rule => exact hended.tail (.clip _ m.path rule)

theorem moves_closePath (m : Machine) : Moves painting silent m m.closePath := moves_of_outline rfl

theorem moves_paint (h : painting) (fill : Option FillRule) (stroke : Bool) (m : Machine) :
    Moves painting silent m (m.paint fill stroke) := by
  have hfilled : Moves painting silent m (fill.elim m fun rule => m.emit (.fill m.path rule)) := by
    cases fill with
    | none => exact .refl
    | some rule => exact (Move.paint m _ rfl h).moves
  unfold paint
  split
  · exact moves_endPath m
  · refine Relation.ReflTransGen.trans ?_ (moves_endPath _)
    split
    · exact hfilled.tail (.paint _ _ rfl h)
    · exact hfilled

/-! ## Graphics states -/

/-- The changes of the style of lines that a graphics state asks for, other than those of dashes. -/
def styleChanges (store : Store) (d : Dict) : List (StrokeStyle → StrokeStyle) :=
  ((store.entry? Object.float32? d "LW").map fun x s => { s with width := x }).toList ++
  (((store.entry? Object.int32? d "LC").bind Operation.cap?).map fun x s => { s with cap := x }).toList ++
  (((store.entry? Object.int32? d "LJ").bind Operation.join?).map fun x s => { s with join := x }).toList ++
  ((store.entry? Object.float32? d "ML").map fun x s => { s with miterLimit := x }).toList

/-- Whether a graphics state changes the style of lines and has an array for dashes that does not hold
lengths and an offset. -/
def hidesStyle (store : Store) (d : Dict) : Bool :=
  !(styleChanges store d).isEmpty &&
    (store.entry? Object.array? d "D").any fun pattern =>
      (store.item? Object.array? pattern 0).isNone || (store.item? Object.float32? pattern 1).isNone

/-- The machine after a graphics state has changed all but the style of lines. -/
def applyOpacities (store : Store) (d : Dict) (m : Machine) : Machine :=
  let m := match store.entry? Object.bool? d "AIS" with
    | some alphaIsShape => { m with state := { m.state with alphaIsShape } }
    | none => m
  let m := (store.entry? Object.float32? d "CA").elim m (m.setAlpha true)
  (store.entry? Object.float32? d "ca").elim m (m.setAlpha false)

theorem applyParameters_eq (store : Store) (d : Dict) (m : Machine) :
    m.applyParameters store d =
      let n := (styleChanges store d).foldl (fun n change => n.changeStyle change)
        (m.applyOpacities store d)
      match store.entry? Object.array? d "D" with
      | none => if (styleChanges store d).isEmpty then n else n.emitStyle
      | some pattern =>
        match store.item? Object.array? pattern 0, store.item? Object.float32? pattern 1 with
        | some dashes, some offset =>
          (n.changeStyle (·.withDashes (Object.float32s dashes) offset)).emitStyle
        | _, _ => n := rfl

theorem changeStyle_changeStyle (first second : StrokeStyle → StrokeStyle) (m : Machine) :
    (m.changeStyle first).changeStyle second = m.changeStyle fun s => second (first s) := rfl

theorem foldl_changeStyle (changes : List (StrokeStyle → StrokeStyle)) (m : Machine) :
    changes.foldl (fun m change => m.changeStyle change) m =
      m.changeStyle fun s => changes.foldl (fun s change => change s) s := by
  induction changes generalizing m with
  | nil => rfl
  | cons change changes ih => rw [List.foldl_cons, ih]; rfl

theorem moves_applyOpacities (store : Store) (d : Dict) (m : Machine) :
    Moves painting silent m (m.applyOpacities store d) := by
  have halpha (stroke : Bool) (value : Option Float32) (m : Machine) :
      Moves painting silent m (value.elim m (m.setAlpha stroke)) := by
    cases value with
    | none => exact .refl
    | some value => exact (Move.alpha m _ _ _).moves
  have hshape : Moves painting silent m
      (match store.entry? Object.bool? d "AIS" with
        | some alphaIsShape => { m with state := { m.state with alphaIsShape } }
        | none => m) := by
    split <;> exact moves_of_outline rfl
  exact (hshape.trans (halpha true _ _)).trans (halpha false _ _)

theorem moves_applyParameters {store : Store} {d : Dict} (h : hidesStyle store d = true → silent)
    (m : Machine) : Moves painting silent m (m.applyParameters store d) := by
  refine (moves_applyOpacities store d m).trans ?_
  rw [applyParameters_eq, foldl_changeStyle]
  generalize m.applyOpacities store d = n
  -- A graphics state without changes keeps the style, so there is nothing to hide.
  have hkept (hnone : styleChanges store d = []) : Moves painting silent n
      (n.changeStyle fun s => (styleChanges store d).foldl (fun s change => change s) s) := by
    rw [hnone]
    exact moves_of_outline rfl
  cases hdashes : store.entry? Object.array? d "D" with
  | none =>
    by_cases hnone : styleChanges store d = []
    · simpa [hnone] using hkept hnone
    · simpa [hnone] using (Move.restyle n _).moves
  | some pattern =>
    have hhidden (hbad : store.item? Object.array? pattern 0 = none ∨
        store.item? Object.float32? pattern 1 = none) : Moves painting silent n
          (n.changeStyle fun s => (styleChanges store d).foldl (fun s change => change s) s) := by
      by_cases hnone : styleChanges store d = []
      · exact hkept hnone
      · refine (Move.hide n _ (h ?_)).moves
        rcases hbad with hbad | hbad <;> simp [hidesStyle, hnone, hdashes, hbad]
    cases hlengths : store.item? Object.array? pattern 0 with
    | none =>
      simp only [hlengths]
      exact hhidden (.inl hlengths)
    | some lengths =>
      cases hoffset : store.item? Object.float32? pattern 1 with
      | none =>
        simp only [hlengths, hoffset]
        exact hhidden (.inr hoffset)
      | some offset =>
        simp only [hlengths, hoffset, changeStyle_changeStyle]
        exact (Move.restyle n _).moves

end Machine

/-! ## Operations -/

/-- Whether an operation changes the style of lines without noting that. -/
def Operation.hidesStyle (r : Resources) : Operation → Bool
  | .graphicsState n => (r.graphicsState? n).any (Machine.hidesStyle r.store)
  | _ => false

namespace Machine

variable {painting silent : Prop} {m : Machine} {ratio : Float32} {drawForm : FormDrawing}
variable {r : Resources}

theorem moves_drawImage (h : painting) (r : Resources) (s : Stream) (placed : Nat × Gallery)
    (m : Machine) : Moves painting silent m (m.drawImage r s placed) := by
  have hplaced : Moves painting silent m { m with gallery := placed.2 } := moves_of_outline rfl
  exact hplaced.tail (.paint _ _ rfl h)

theorem moves_elim {α : Type} {f : α → Machine} (h : ∀ a, Moves painting silent m (f a))
    (a : Option α) : Moves painting silent m (a.elim m f) := by
  cases a with
  | none => exact .refl
  | some a => exact h a

theorem moves_perform {o : Operation} (hname : o.xObject? = none) (hpaints : o.paints → painting)
    (hhides : o.hidesStyle r = true → silent) (m : Machine) :
    Moves painting silent m (m.perform ratio drawForm r o) := by
  cases o with
  | xObject n => cases hname
  | save => exact (Move.save m).moves
  | restore => exact (Move.restore m).moves
  | concat t => exact (Move.concat m t).moves
  | restyle change => exact (Move.restyle m change).moves
  | setColor stroke space components => exact (Move.setColor m ratio stroke space components).moves
  | selectSpace stroke o => exact moves_elim (fun space => (Move.setColor m ratio stroke space _).moves) _
  | changeColor stroke components => exact (Move.setColor m ratio stroke _ components).moves
  | move p => exact moves_of_outline rfl
  | line p => exact moves_of_outline rfl
  | curve c1 c2 p => exact moves_of_outline rfl
  | curveFromCurrent c2 p => exact moves_of_outline rfl
  | closePath => exact moves_closePath m
  | rectangle p q => exact moves_of_outline rfl
  | paint close fill stroke =>
    simp only [perform]
    split
    · exact (moves_closePath m).trans (moves_paint (hpaints trivial) fill stroke _)
    · exact moves_paint (hpaints trivial) fill stroke m
  | endPath => exact moves_endPath m
  | clip rule => exact moves_of_outline rfl
  | graphicsState n =>
    simp only [perform]
    cases hstate : r.graphicsState? n with
    | none => exact .refl
    | some d =>
      have hsame : (Operation.graphicsState n).hidesStyle r = hidesStyle r.store d := by
        simp [Operation.hidesStyle, hstate]
      exact moves_applyParameters (fun h => hhides (hsame.trans h)) m
  | inlineImage s => exact moves_drawImage (hpaints trivial) r s _ m
  | beginMarked => exact (Move.beginMarked m none).moves
  | beginLayer properties => exact (Move.beginMarked m _).moves
  | endMarked => exact (Move.endMarked m).moves
  | nothing => exact .refl

/-! ## The beginning and the end of a content stream -/

theorem moves_surround (store : Store) (d : Dict) (m : Machine) :
    Moves painting silent m (m.surround store d) := by
  have hsaved : Moves painting silent m m.save := (Move.save m).moves
  have htransformed : Moves painting silent m (m.save.concat (formTransform store d)) :=
    hsaved.tail (.concat _ _)
  unfold surround
  cases formBox? store d with
  | none => exact htransformed
  | some box => exact htransformed.tail (.clip _ box .nonzero)

theorem moves_foldl {α : Type} {f : Machine → Machine} (h : ∀ m, Move painting silent m (f m))
    (l : List α) (m : Machine) : Moves painting silent m (l.foldl (fun m _ => f m) m) := by
  induction l generalizing m with
  | nil => exact .refl
  | cons _ l ih => exact (ih (f m)).head (h m)

theorem moves_close (m : Machine) : Moves painting silent m m.close :=
  (moves_foldl Move.endMarked m.marked m).trans (moves_foldl Move.restore _ _)

theorem marked_foldl_endMarked (m : Machine) :
    (m.marked.foldl (fun m _ => m.endMarked) m).marked = [] := by
  generalize hmarked : m.marked = marked
  induction marked generalizing m with
  | nil => exact hmarked
  | cons layered marked ih =>
    refine ih m.endMarked ?_
    rw [endMarked, hmarked]
    cases layered <;> rfl

theorem saved_foldl_restore (m : Machine) :
    (m.saved.foldl (fun m _ => m.restore) m).saved = [] := by
  generalize hsaved : m.saved = saved
  induction saved generalizing m with
  | nil => exact hsaved
  | cons s saved ih =>
    refine ih m.restore ?_
    rw [restore, hsaved]
    rfl

theorem marked_restore (m : Machine) : m.restore.marked = m.marked := by
  unfold restore
  cases m.saved <;> rfl

/-- In the end no marked content is open and no state is saved. -/
theorem marked_close (m : Machine) : m.close.marked = [] := by
  have hkept (saved : List GraphicsState) (m : Machine) :
      (saved.foldl (fun m _ => m.restore) m).marked = m.marked := by
    induction saved generalizing m with
    | nil => rfl
    | cons _ saved ih => exact (ih m.restore).trans m.marked_restore
  exact (hkept _ _).trans m.marked_foldl_endMarked

theorem saved_close (m : Machine) : m.close.saved = [] := saved_foldl_restore _

end Machine

end Folio
