import Folio.Proofs.Draw.Moves

/-!
# Following the graphics state through a draw list

Who executes a draw list keeps a stack of what its commands set, which two of the commands push and pop.
The machine keeps its states in the same way. Main statement: `Sound.steps`, the two stacks agree after any
steps, for every quantity whose changes are noted (`Quantity.IsNoted`); these are the transform, the color
of areas and, unless a step hides a change, the style of lines.

A form goes on with the states under it (`Nested`), so its end is the end of what it saved.
-/

namespace Folio

/-- A quantity of the graphics state that is followed through a draw list. -/
structure Quantity (α : Type) where
  /-- What it is in a state of the machine. -/
  ofState : GraphicsState → α
  /-- What it becomes by a command, unless states are saved or restored. -/
  set : StateCommand → α → α

namespace Quantity

/-- The transform and the color of areas. -/
def paint : Quantity (Affine × Rgb) where
  ofState s := (s.ctm, s.fill)
  set
    | .transform ctm, (_, fill) => (ctm, fill)
    | .fillColor fill, (ctm, _) => (ctm, fill)
    | _, old => old

/-- The style of lines. -/
def lineStyle : Quantity StrokeStyle where
  ofState s := s.style
  set
    | .strokeStyle style, _ => style
    | _, old => old

variable {α : Type} {q : Quantity α} {stack start : List α}

/-- The stack of a quantity after a command. -/
def follow (q : Quantity α) : List α → DrawCommand → List α
  | top :: rest, .state .push => top :: top :: rest
  | _ :: rest, .state .pop => rest
  | top :: rest, .state c => q.set c top :: rest
  | stack, _ => stack

/-- The stack of a quantity after some commands. -/
def followAll (q : Quantity α) (start : List α) (commands : List DrawCommand) : List α :=
  commands.foldl q.follow start

theorem followAll_append (first second : List DrawCommand) :
    q.followAll start (first ++ second) = q.followAll (q.followAll start first) second :=
  List.foldl_append

/-- Whether the commands tell how a quantity changes. -/
structure IsNoted (q : Quantity α) : Prop where
  transform : ∀ s ctm, q.set (.transform ctm) (q.ofState s) = q.ofState { s with ctm }
  fillColor : ∀ s fillSpace fill,
    q.set (.fillColor fill) (q.ofState s) = q.ofState { s with fillSpace, fill }
  strokeColor : ∀ s strokeSpace color,
    q.set (.strokeColor color) (q.ofState s) = q.ofState { s with strokeSpace }
  strokeStyle : ∀ s style, q.set (.strokeStyle style) (q.ofState s) = q.ofState { s with style }
  clip : ∀ s path rule, q.set (.clip path rule) (q.ofState s) = q.ofState s
  unnoted : ∀ s t : GraphicsState, s.ctm = t.ctm → s.fill = t.fill → s.style = t.style →
    q.ofState s = q.ofState t

theorem isNoted_paint : paint.IsNoted where
  transform _ _ := rfl
  fillColor _ _ _ := rfl
  strokeColor _ _ _ := rfl
  strokeStyle _ _ := rfl
  clip _ _ _ := rfl
  unnoted _ _ hctm hfill _ := Prod.ext hctm hfill

theorem isNoted_lineStyle : lineStyle.IsNoted where
  transform _ _ := rfl
  fillColor _ _ _ := rfl
  strokeColor _ _ _ := rfl
  strokeStyle _ _ := rfl
  clip _ _ _ := rfl
  unnoted _ _ _ _ hstyle := hstyle

/-- Whether the style of lines does not matter for a quantity. -/
def IgnoresStyle (q : Quantity α) : Prop := ∀ s style, q.ofState { s with style } = q.ofState s

theorem ignoresStyle_paint : paint.IgnoresStyle := fun _ _ => rfl

end Quantity

/-- The state of a machine and all states that are saved, the newest first. -/
def Machine.stack (m : Machine) : List GraphicsState := m.state :: (m.saved ++ m.enclosing)

/-- Whether the commands of a machine tell what a quantity is in all its states. -/
def Machine.Tells {α : Type} (q : Quantity α) (start : List α) (m : Machine) : Prop :=
  q.followAll start m.commands.toList = m.stack.map q.ofState

namespace Machine

variable {α : Type} {q : Quantity α} {start : List α} {m n : Machine} {painting silent : Prop}

theorem Tells.push {c : DrawCommand} (h : m.Tells q start) (hcommands : n.commands = m.commands.push c)
    (hstack : q.follow (m.stack.map q.ofState) c = n.stack.map q.ofState) : n.Tells q start := by
  rw [Tells, hcommands, Array.toList_push, Quantity.followAll_append, h]
  exact hstack

theorem Tells.of_commands_eq (h : m.Tells q start) (hcommands : n.commands = m.commands)
    (hstack : m.stack.map q.ofState = n.stack.map q.ofState) : n.Tells q start := by
  rw [Tells, hcommands, h, hstack]

/-! ## Moves -/

theorem enclosing_restore (m : Machine) : m.restore.enclosing = m.enclosing := by
  unfold restore
  cases m.saved <;> rfl

theorem Tells.restore (h : m.Tells q start) : m.restore.Tells q start := by
  cases hsaved : m.saved with
  | nil => rwa [Machine.restore, hsaved]
  | cons s saved =>
    rw [Machine.restore, hsaved]
    refine h.push rfl ?_
    simp [stack, hsaved, Quantity.follow, emit]

theorem Tells.endMarked (h : m.Tells q start) :
    m.endMarked.Tells q start ∧ m.endMarked.enclosing = m.enclosing := by
  unfold Machine.endMarked
  cases m.marked with
  | nil => exact ⟨h, rfl⟩
  | cons layered marked =>
    cases layered with
    | false => exact ⟨h.of_commands_eq rfl rfl, rfl⟩
    | true => exact ⟨h.push rfl rfl, rfl⟩

theorem Tells.beginMarked (h : m.Tells q start) (membership : Option Membership) :
    (m.beginMarked membership).Tells q start ∧
      (m.beginMarked membership).enclosing = m.enclosing := by
  cases membership with
  | none => exact ⟨h.of_commands_eq rfl rfl, rfl⟩
  | some layers => exact ⟨h.push rfl rfl, rfl⟩

theorem Tells.setColor (hq : q.IsNoted) (h : m.Tells q start) (ratio : Float32) (stroke : Bool)
    (space : ColorSpace) (components : List Float32) :
    (m.setColor ratio stroke space components).Tells q start ∧
      (m.setColor ratio stroke space components).enclosing = m.enclosing := by
  unfold Machine.setColor
  split
  · exact ⟨h.push rfl (congrArg (· :: _) (hq.strokeColor m.state _ _)), rfl⟩
  · exact ⟨h.push rfl (congrArg (· :: _) (hq.fillColor m.state _ _)), rfl⟩

theorem Tells.of_outline (hq : q.IsNoted) (h : m.Tells q start) (houtline : n.outline = m.outline) :
    n.Tells q start ∧ n.enclosing = m.enclosing := by
  have hcommands : n.commands = m.commands := congrArg Outline.commands houtline
  have hsaved : n.saved = m.saved := congrArg Outline.saved houtline
  have henclosing : n.enclosing = m.enclosing := congrArg Outline.enclosing houtline
  have hstate : q.ofState m.state = q.ofState n.state :=
    hq.unnoted _ _ (congrArg Outline.ctm houtline).symm (congrArg Outline.fill houtline).symm
      (congrArg Outline.style houtline).symm
  exact ⟨h.of_commands_eq hcommands (by simp [stack, hsaved, henclosing, hstate]), henclosing⟩

theorem Move.tells (hq : q.IsNoted) (hsilent : silent → q.IgnoresStyle)
    (hmove : Move painting silent m n) (h : m.Tells q start) :
    n.Tells q start ∧ n.enclosing = m.enclosing := by
  cases hmove with
  | inner houtline => exact h.of_outline hq houtline
  | paint c hc =>
    refine ⟨h.push rfl ?_, rfl⟩
    cases c <;> cases hc <;> rfl
  | alpha => exact ⟨h.push rfl rfl, rfl⟩
  | clip path rule => exact ⟨h.push rfl (congrArg (· :: _) (hq.clip m.state path rule)), rfl⟩
  | concat t => exact ⟨h.push rfl (congrArg (· :: _) (hq.transform m.state _)), rfl⟩
  | setColor ratio stroke space components => exact h.setColor hq ratio stroke space components
  | restyle change => exact ⟨h.push rfl (congrArg (· :: _) (hq.strokeStyle m.state _)), rfl⟩
  | hide change hhidden =>
    exact ⟨h.of_commands_eq rfl (congrArg (· :: _) (hsilent hhidden m.state _).symm), rfl⟩
  | save => exact ⟨h.push rfl rfl, rfl⟩
  | restore => exact ⟨h.restore, m.enclosing_restore⟩
  | beginMarked membership => exact h.beginMarked membership
  | endMarked => exact h.endMarked

theorem Moves.tells (hq : q.IsNoted) (hsilent : silent → q.IgnoresStyle)
    (hmoves : Moves painting silent m n) (h : m.Tells q start) :
    n.Tells q start ∧ n.enclosing = m.enclosing := by
  induction hmoves with
  | refl => exact ⟨h, rfl⟩
  | tail _ hmove ih =>
    obtain ⟨htells, henclosing⟩ := ih
    obtain ⟨htells, hlast⟩ := hmove.tells hq hsilent htells
    exact ⟨htells, hlast.trans henclosing⟩

end Machine

/-! ## Runs -/

/-- Whether a step changes the style of lines without noting that. -/
def DrawStep.hidesStyle : DrawStep → Bool
  | .perform r o _ => o.hidesStyle r
  | _ => false

namespace DrawRun

variable {α : Type} {q : Quantity α} {start : List α} {m : Machine} {outer : List Machine}
variable {run : DrawRun} {ratio : Float32}

/-- Whether a machine goes on with the states of the machines at which the forms around it began. -/
def Nested : Machine → List Machine → Prop
  | _, [] => True
  | m, n :: outer => m.enclosing = n.saved ++ n.enclosing ∧ Nested n outer

theorem Nested.congr {n : Machine} (h : Nested m outer) (henclosing : n.enclosing = m.enclosing) :
    Nested n outer := by
  cases outer with
  | nil => trivial
  | cons o outer => exact ⟨henclosing.trans h.1, h.2⟩

/-- What holds of a run after each step. -/
structure Sound (q : Quantity α) (start : List α) (run : DrawRun) : Prop where
  tells : run.machine.Tells q start
  nested : Nested run.machine run.outer

theorem Sound.beginForm (hq : q.IsNoted) (h : Sound q start run) (store : Store) (d : Dict) :
    Sound q start (run.step ratio (.beginForm store d)) := by
  have hmoves : Machine.Moves True False run.machine (run.machine.surround store d) :=
    Machine.moves_surround store d _
  obtain ⟨htells, henclosing⟩ := hmoves.tells hq nofun h.tells
  exact ⟨htells.of_commands_eq rfl rfl, rfl, h.nested.congr henclosing⟩

/-- At the end of a form all that it saved has been restored, so the newest state is the one saved
before the form. -/
theorem Sound.endForm (hq : q.IsNoted) (h : Sound q start run) :
    Sound q start (run.step ratio .endForm) := by
  obtain ⟨m, outer⟩ := run
  cases outer with
  | nil => exact h
  | cons n outer =>
    obtain ⟨htells, henclosing, hnested⟩ := h
    have hmoves : Machine.Moves True False m m.close := m.moves_close
    obtain ⟨htells, hclosed⟩ := hmoves.tells hq nofun htells
    have henclosing : m.enclosing = n.saved ++ n.enclosing := henclosing
    have hleft : (m.close.leave n).Tells q start := by
      refine htells.of_commands_eq rfl ?_
      simp [Machine.stack, Machine.leave, m.saved_close, hclosed, henclosing]
    exact ⟨hleft.restore, hnested.congr (Machine.enclosing_restore _)⟩

theorem Sound.step (hq : q.IsNoted) {s : DrawStep} (hs : s.hidesStyle = true → q.IgnoresStyle)
    (h : Sound q start run) : Sound q start (run.step ratio s) := by
  cases s with
  | perform r o hname =>
    have hmoves : Machine.Moves True (o.hidesStyle r = true) run.machine
        (run.machine.perform ratio (fun _ _ m => m) r o) :=
      Machine.moves_perform hname (fun _ => trivial) id _
    obtain ⟨htells, henclosing⟩ := hmoves.tells hq hs h.tells
    exact ⟨htells, h.nested.congr henclosing⟩
  | beginLayers | endLayers => exact ⟨h.tells.push rfl rfl, h.nested.congr rfl⟩
  | image => exact ⟨h.tells.push rfl rfl, h.nested.congr rfl⟩
  | beginForm store d => exact h.beginForm hq store d
  | endForm => exact h.endForm hq
  | endPage =>
    have hmoves : Machine.Moves True False run.machine run.machine.close := Machine.moves_close _
    obtain ⟨htells, henclosing⟩ := hmoves.tells hq nofun h.tells
    exact ⟨htells, h.nested.congr henclosing⟩

/-- The commands tell what a quantity is in all states of the machine, after any steps. -/
theorem Sound.steps (hq : q.IsNoted) {steps : List DrawStep}
    (hsteps : ∀ s ∈ steps, s.hidesStyle = true → q.IgnoresStyle) (h : Sound q start run) :
    Sound q start (run.steps ratio steps) := by
  induction steps generalizing run with
  | nil => exact h
  | cons s steps ih =>
    obtain ⟨hs, hsteps⟩ := List.forall_mem_cons.mp hsteps
    exact ih hsteps (h.step hq hs)

end DrawRun

end Folio
