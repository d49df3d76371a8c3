import Folio.Proofs.Draw.Moves

/-!
# What drawing does not depend on

No operation looks at the commands noted before it, only images look at the gallery, and the points where the
last path was matter only to an operation that goes on with a path. A mask replaces these parts of a machine
(`Machine.mask`). Main statements: `mask_perform` and `mask_close`, a machine does the same with a mask as
without, so only an image changes the gallery (`gallery_perform`).
-/

namespace Folio

/-- The command with other numbers for images. -/
def DrawCommand.renumber (ρ : Nat → Nat) : DrawCommand → DrawCommand
  | .image number s r color => .image (ρ number) s r color
  | c => c

namespace Operation

/-- Whether an operation begins a part of a path. -/
def beginsPath : Operation → Bool
  | .move _ | .rectangle _ _ => true
  | _ => false

/-- Whether an operation goes on with a path from the current point. -/
def continuesPath : Operation → Bool
  | .line _ | .curve _ _ _ | .curveFromCurrent _ _ => true
  | _ => false

/-- The image that an operation draws from the content stream itself. -/
def inlineImage? : Operation → Option Stream
  | .inlineImage s => some s
  | _ => none

theorem eq_inlineImage {o : Operation} {s : Stream} (h : o.inlineImage? = some s) : o = .inlineImage s := by
  cases o <;> cases h
  rfl

end Operation

namespace Machine

/-- The machine with another gallery, with other numbers for the images in its commands and, unless `points`
is true, with the points of its path at the origin. -/
def mask (ρ : Nat → Nat) (g : Gallery) (points : Bool) (m : Machine) : Machine :=
  { m with
    current := if points then m.current else .origin
    start := if points then m.start else .origin
    commands := m.commands.map (DrawCommand.renumber ρ)
    gallery := g }

variable {ρ : Nat → Nat} {g : Gallery} {points : Bool} {m : Machine} {ratio : Float32}
variable {drawForm : FormDrawing} {r : Resources}

theorem mask_emit (c : DrawCommand) (m : Machine) :
    (m.emit c).mask ρ g points = (m.mask ρ g points).emit (c.renumber ρ) := by
  simp [mask, emit]

theorem mask_save (m : Machine) : m.save.mask ρ g points = (m.mask ρ g points).save :=
  mask_emit _ { m with saved := _ }

theorem mask_restore (m : Machine) : m.restore.mask ρ g points = (m.mask ρ g points).restore := by
  obtain ⟨_, saved, _⟩ := m
  cases saved with
  | nil => rfl
  | cons s saved => exact mask_emit _ _

theorem mask_concat (t : Affine) (m : Machine) :
    (m.concat t).mask ρ g points = (m.mask ρ g points).concat t :=
  mask_emit _ { m with state := _ }

theorem mask_emitStyle (m : Machine) :
    m.emitStyle.mask ρ g points = (m.mask ρ g points).emitStyle := mask_emit _ m

theorem mask_setColor (stroke : Bool) (space : ColorSpace) (components : List Float32) (m : Machine) :
    (m.setColor ratio stroke space components).mask ρ g points =
      (m.mask ρ g points).setColor ratio stroke space components := by
  cases stroke <;> exact mask_emit _ { m with state := _ }

theorem mask_setAlpha (stroke : Bool) (value : Float32) (m : Machine) :
    (m.setAlpha stroke value).mask ρ g points = (m.mask ρ g points).setAlpha stroke value :=
  mask_emit _ m

theorem mask_changeStyle (change : StrokeStyle → StrokeStyle) (m : Machine) :
    (m.changeStyle change).mask ρ g points = (m.mask ρ g points).changeStyle change := rfl

theorem mask_elim {α : Type} {f : α → Machine → Machine}
    (h : ∀ a, (f a m).mask ρ g points = f a (m.mask ρ g points)) (a : Option α) :
    (a.elim m fun a => f a m).mask ρ g points =
      a.elim (m.mask ρ g points) fun a => f a (m.mask ρ g points) := by
  cases a with
  | none => rfl
  | some a => exact h a

/-! ## Graphics states -/

theorem mask_applyOpacities (store : Store) (d : Dict) (m : Machine) :
    (m.applyOpacities store d).mask ρ g points = (m.mask ρ g points).applyOpacities store d := by
  have halpha (stroke : Bool) (value : Option Float32) (m : Machine) :
      (value.elim m (m.setAlpha stroke)).mask ρ g points =
        value.elim (m.mask ρ g points) ((m.mask ρ g points).setAlpha stroke) :=
    mask_elim (fun a => mask_setAlpha stroke a m) value
  unfold applyOpacities
  rw [halpha, halpha]
  cases store.entry? Object.bool? d "AIS" <;> rfl

theorem mask_applyParameters (store : Store) (d : Dict) (m : Machine) :
    (m.applyParameters store d).mask ρ g points = (m.mask ρ g points).applyParameters store d := by
  rw [applyParameters_eq, applyParameters_eq, ← mask_applyOpacities]
  generalize m.applyOpacities store d = n
  simp only [foldl_changeStyle, ← mask_changeStyle]
  cases store.entry? Object.array? d "D" with
  | none =>
    cases (styleChanges store d).isEmpty with
    | true => rfl
    | false => exact mask_emitStyle _
  | some pattern =>
    dsimp only
    cases store.item? Object.array? pattern 0 with
    | none => rfl
    | some lengths =>
      cases store.item? Object.float32? pattern 1 with
      | none => rfl
      | some offset => exact mask_emitStyle _

/-! ## Paths and marked content -/

theorem mask_closePath (m : Machine) :
    m.closePath.mask ρ g points = (m.mask ρ g points).closePath := by
  cases points <;> rfl

theorem mask_endPath (m : Machine) : m.endPath.mask ρ g points = (m.mask ρ g points).endPath := by
  obtain ⟨_, _, _, _, path, _, _, pendingClip, _⟩ := m
  cases pendingClip with
  | none => rfl
  | some rule => exact mask_emit _ _

theorem mask_paint (fill : Option FillRule) (stroke : Bool) (m : Machine) :
    (m.paint fill stroke).mask ρ g points = (m.mask ρ g points).paint fill stroke := by
  have hpath : (m.mask ρ g points).path = m.path := rfl
  have hfilled : (fill.elim m fun rule => m.emit (.fill m.path rule)).mask ρ g points =
      fill.elim (m.mask ρ g points) fun rule => (m.mask ρ g points).emit (.fill m.path rule) := by
    cases fill with
    | none => rfl
    | some rule => exact mask_emit _ m
  unfold paint
  rw [hpath]
  split
  · exact mask_endPath m
  · rw [mask_endPath, ← hfilled]
    cases stroke with
    | false => rfl
    | true => exact congrArg endPath (mask_emit _ _)

theorem mask_beginMarked (membership : Option Membership) (m : Machine) :
    (m.beginMarked membership).mask ρ g points = (m.mask ρ g points).beginMarked membership := by
  cases membership with
  | none => rfl
  | some layers => exact mask_emit _ { m with marked := _ }

theorem mask_endMarked (m : Machine) : m.endMarked.mask ρ g points = (m.mask ρ g points).endMarked := by
  obtain ⟨_, _, _, marked, _⟩ := m
  cases marked with
  | nil => rfl
  | cons layered marked =>
    cases layered with
    | false => rfl
    | true => exact mask_emit _ _

/-! ## Operations and content streams -/

/-- An operation that does not draw an image does the same with a mask as without. The points matter only
where it goes on with a path. -/
theorem mask_perform {o : Operation} (hname : o.xObject? = none) (himage : o.inlineImage? = none)
    (hbegins : o.beginsPath = false) (hpoints : o.continuesPath = true → points = true) (m : Machine) :
    (m.perform ratio drawForm r o).mask ρ g points =
      (m.mask ρ g points).perform ratio drawForm r o := by
  cases o with
  | xObject => cases hname
  | inlineImage => cases himage
  | move | rectangle => cases hbegins
  | line | curve | curveFromCurrent =>
    obtain rfl := hpoints rfl
    rfl
  | save => exact mask_save m
  | restore => exact mask_restore m
  | concat t => exact mask_concat t m
  | restyle change => exact mask_emitStyle (m.changeStyle change)
  | setColor stroke space components => exact mask_setColor stroke space components m
  | selectSpace stroke o => exact mask_elim (fun space => mask_setColor stroke space _ m) _
  | changeColor stroke components => exact mask_setColor stroke _ components m
  | closePath => exact mask_closePath m
  | paint close fill stroke =>
    cases close with
    | false => exact mask_paint fill stroke m
    | true => exact (mask_paint fill stroke _).trans (congrArg _ (mask_closePath m))
  | endPath => exact mask_endPath m
  | clip | nothing => rfl
  | graphicsState n => exact mask_elim (fun d => mask_applyParameters r.store d m) _
  | beginMarked => exact mask_beginMarked none m
  | beginLayer properties => exact mask_beginMarked _ m
  | endMarked => exact mask_endMarked m

/-- An operation that begins a part of a path does not look at the points. -/
theorem mask_perform_beginsPath {o : Operation} (h : o.beginsPath = true) (m : Machine) :
    (m.perform ratio drawForm r o).mask ρ g true =
      (m.mask ρ g points).perform ratio drawForm r o := by
  cases o with
  | move | rectangle => rfl
  | _ => cases h

theorem mask_close (m : Machine) : m.close.mask ρ g points = (m.mask ρ g points).close := by
  have hunmarked (marked : List Bool) (m : Machine) :
      (marked.foldl (fun m _ => m.endMarked) m).mask ρ g points =
        marked.foldl (fun m _ => m.endMarked) (m.mask ρ g points) :=
    (List.foldl_hom (mask ρ g points) fun m _ => (mask_endMarked m).symm).symm
  have hrestored (saved : List GraphicsState) (m : Machine) :
      (saved.foldl (fun m _ => m.restore) m).mask ρ g points =
        saved.foldl (fun m _ => m.restore) (m.mask ρ g points) :=
    (List.foldl_hom (mask ρ g points) fun m _ => (mask_restore m).symm).symm
  have hsaved (n : Machine) : n.saved = (n.mask ρ g points).saved := rfl
  unfold close
  rw [hrestored, hsaved, hunmarked]
  rfl

theorem mask_drawImage (r : Resources) (s : Stream) (placed : Nat × Gallery) (m : Machine) :
    (m.drawImage r s placed).mask ρ g points =
      (m.mask ρ g points).emit
        (.image (ρ placed.1) ((placed.2.stream? placed.1).getD s) r m.state.fill) :=
  mask_emit _ { m with gallery := placed.2 }

theorem mask_surround (store : Store) (d : Dict) (m : Machine) :
    (m.surround store d).mask ρ g points = (m.mask ρ g points).surround store d := by
  have htransformed : (m.save.concat (formTransform store d)).mask ρ g points =
      (m.mask ρ g points).save.concat (formTransform store d) := by
    rw [mask_concat, mask_save]
  unfold surround
  rw [← htransformed]
  exact mask_elim (f := fun box m => m.emit (.state (.clip box .nonzero))) (fun _ => mask_emit _ _) _

/-! ## Galleries -/

theorem renumber_id (c : DrawCommand) : c.renumber id = c := by
  cases c <;> rfl

theorem mask_self (m : Machine) : m.mask id m.gallery true = m := by
  simp [mask, funext renumber_id]

/-- What is the same with each mask as without keeps the gallery. -/
theorem gallery_of_mask {f : Machine → Machine}
    (h : (f m).mask id m.gallery true = f (m.mask id m.gallery true)) :
    (f m).gallery = m.gallery := by
  rw [mask_self] at h
  exact (congrArg gallery h).symm

theorem gallery_perform {o : Operation} (hname : o.xObject? = none) (himage : o.inlineImage? = none)
    (m : Machine) : (m.perform ratio drawForm r o).gallery = m.gallery := by
  cases hbegins : o.beginsPath with
  | false =>
    exact gallery_of_mask (f := fun m => m.perform ratio drawForm r o)
      (mask_perform hname himage hbegins (fun _ => rfl) m)
  | true =>
    exact gallery_of_mask (f := fun m => m.perform ratio drawForm r o)
      (mask_perform_beginsPath hbegins m)

theorem gallery_close (m : Machine) : m.close.gallery = m.gallery :=
  gallery_of_mask (f := close) (mask_close m)

theorem gallery_restore (m : Machine) : m.restore.gallery = m.gallery :=
  gallery_of_mask (f := restore) (mask_restore m)

end Machine

end Folio
