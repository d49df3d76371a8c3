import Folio.Proofs.Draw.Quantity

/-!
# Which step notes a command

Each command of a draw list is noted in one step of drawing the page (`exists_notes`, `notes_unique`). A
step paints before it notes anything else, and in the state in which it began (`PaintsFirst`). So the state
that a draw list tells before a command that paints is the one in which the machine painted. Main
statements: `draw_tells_paint`, at all times a draw list tells the transform and the color of areas, and
`draw_tells_lineStyle`, it tells the style of each line that it draws unless a change was hidden before.
-/

namespace Folio

namespace Machine

/-- Whether a command paints as a machine does in its state. -/
def Shows (m : Machine) : DrawCommand → Prop
  | .fill _ _ | .stroke _ => True
  | .image _ _ _ fill => fill = m.state.fill
  | _ => False

/-- Whether a machine notes a command, after those in `noted`, on its way to another one. -/
structure Notes (m n : Machine) (noted : List DrawCommand) (c : DrawCommand) : Prop where
  before : m.commands.toList <+: noted
  after : noted ++ [c] <+: n.commands.toList

/-- Whether a machine has noted only commands that do not paint. -/
def Quiet (m n : Machine) : Prop :=
  ∃ added, n.commands.toList = m.commands.toList ++ added ∧ ∀ c ∈ added, c.paints = false

/-- Whether a machine has painted before it noted anything else and, if it has painted, has kept its state. -/
def PaintsFirst (m n : Machine) : Prop :=
  ∃ shown added, n.commands.toList = m.commands.toList ++ shown ++ added ∧
    (∀ c ∈ shown, m.Shows c) ∧ (∀ c ∈ added, c.paints = false) ∧ (shown ≠ [] → n.state = m.state)

variable {m n o : Machine} {c : DrawCommand} {noted : List DrawCommand}

theorem Shows.paints (h : m.Shows c) : c.paints = true := by
  cases c with
  | fill | stroke | image => rfl
  | state | alpha | pushLayer | popLayer => exact h.elim

/-! ## Quiet moves -/

theorem quiet_of_commands_eq (h : n.commands = m.commands) : m.Quiet n := ⟨[], by simp [h], nofun⟩

theorem quiet_emit (h : c.paints = false) (m : Machine) : m.Quiet (m.emit c) :=
  ⟨[c], by simp [emit], by simpa using h⟩

theorem Quiet.trans (hfirst : m.Quiet n) (hsecond : n.Quiet o) : m.Quiet o := by
  obtain ⟨first, hn, hfirst⟩ := hfirst
  obtain ⟨second, ho, hsecond⟩ := hsecond
  exact ⟨first ++ second, by rw [ho, hn, List.append_assoc],
    List.forall_mem_append.mpr ⟨hfirst, hsecond⟩⟩

theorem Move.quiet {silent : Prop} (h : Move False silent m n) : m.Quiet n := by
  cases h with
  | inner h => exact quiet_of_commands_eq (congrArg Outline.commands h)
  | paint c hc h => exact h.elim
  | alpha | clip => exact quiet_emit rfl m
  | concat t => exact quiet_emit rfl { m with state := _ }
  | setColor ratio stroke space components =>
    unfold Machine.setColor
    split <;> exact quiet_emit rfl { m with state := _ }
  | restyle change => exact quiet_emit rfl (m.changeStyle change)
  | hide => exact quiet_of_commands_eq rfl
  | save => exact quiet_emit rfl { m with saved := _ }
  | restore =>
    unfold Machine.restore
    cases m.saved with
    | nil => exact quiet_of_commands_eq rfl
    | cons s saved => exact quiet_emit rfl { m with state := s, saved := saved }
  | beginMarked membership =>
    cases membership with
    | none => exact quiet_of_commands_eq rfl
    | some layers => exact quiet_emit rfl { m with marked := _ }
  | endMarked =>
    unfold Machine.endMarked
    cases m.marked with
    | nil => exact quiet_of_commands_eq rfl
    | cons layered marked =>
      cases layered with
      | false => exact quiet_of_commands_eq rfl
      | true => exact quiet_emit rfl { m with marked := marked }

theorem Moves.quiet {silent : Prop} (h : Moves False silent m n) : m.Quiet n := by
  induction h with
  | refl => exact quiet_of_commands_eq rfl
  | tail _ hmove ih => exact ih.trans hmove.quiet

/-! ## Painting -/

theorem Quiet.paintsFirst (h : m.Quiet n) : m.PaintsFirst n := by
  obtain ⟨added, hadded, hquiet⟩ := h
  exact ⟨[], added, by simp [hadded], nofun, hquiet, fun h => absurd rfl h⟩

theorem paintsFirst_paint (fill : Option FillRule) (stroke : Bool) (m : Machine) :
    m.PaintsFirst (m.paint fill stroke) := by
  have hended (m : Machine) : m.endPath.state = m.state := by
    unfold endPath
    cases m.pendingClip <;> rfl
  unfold paint
  split
  · exact (moves_endPath m : Moves False False m m.endPath).quiet.paintsFirst
  · have hpainted (n : Machine) (shown : List DrawCommand) (hstate : n.state = m.state)
        (hcommands : n.commands.toList = m.commands.toList ++ shown) (hshown : ∀ c ∈ shown, m.Shows c) :
        m.PaintsFirst n.endPath := by
      obtain ⟨added, hadded, hquiet⟩ := (moves_endPath n : Moves False False n n.endPath).quiet
      exact ⟨shown, added, by rw [hadded, hcommands], hshown, hquiet, fun _ => (hended n).trans hstate⟩
    cases fill with
    | none =>
      cases stroke with
      | false => exact hpainted m [] rfl (by simp) nofun
      | true => exact hpainted _ [.stroke m.path] rfl (by simp [emit]) (by simp [Shows])
    | some rule =>
      cases stroke with
      | false => exact hpainted _ [.fill m.path rule] rfl (by simp [emit]) (by simp [Shows])
      | true =>
        exact hpainted _ [.fill m.path rule, .stroke m.path] rfl (by simp [emit]) (by simp [Shows])

theorem paintsFirst_drawImage (r : Resources) (s : Stream) (placed : Nat × Gallery) (m : Machine) :
    m.PaintsFirst (m.drawImage r s placed) :=
  ⟨[.image placed.1 ((placed.2.stream? placed.1).getD s) r m.state.fill], [],
    by simp [drawImage, emit], by simp [Shows], nofun, fun _ => rfl⟩

theorem paintsFirst_perform {ratio : Float32} {drawForm : FormDrawing} {r : Resources} {o : Operation}
    (hname : o.xObject? = none) (m : Machine) : m.PaintsFirst (m.perform ratio drawForm r o) := by
  by_cases hpaints : o.paints
  · cases o with
    | paint close fill stroke =>
      cases close with
      | false => exact paintsFirst_paint fill stroke m
      | true => exact paintsFirst_paint fill stroke m.closePath
    | inlineImage s => exact paintsFirst_drawImage r s _ m
    | _ => exact hpaints.elim
  · have hmoves : Moves False True m (m.perform ratio drawForm r o) :=
      moves_perform hname hpaints (fun _ => trivial) m
    exact hmoves.quiet.paintsFirst

theorem PaintsFirst.prefix_commands (h : m.PaintsFirst n) :
    m.commands.toList <+: n.commands.toList := by
  obtain ⟨shown, added, hadded, _⟩ := h
  exact ⟨shown ++ added, by rw [hadded, List.append_assoc]⟩

/-- What paints is noted before all that does not. -/
theorem Notes.of_paintsFirst (hnotes : m.Notes n noted c) (hc : c.paints = true)
    (h : m.PaintsFirst n) :
    m.Shows c ∧ n.state = m.state ∧
      ∃ shown, noted = m.commands.toList ++ shown ∧ ∀ d ∈ shown, d.paints = true := by
  obtain ⟨shown, added, hadded, hshown, hquiet, hstate⟩ := h
  obtain ⟨⟨middle, rfl⟩, after, hafter⟩ := hnotes
  have hsplit : middle ++ c :: after = shown ++ added := by
    rw [hadded] at hafter
    simpa using hafter
  rcases List.append_eq_append_iff.mp hsplit with ⟨rest, hrest, hcommand⟩ | ⟨rest, -, hrest⟩
  · cases rest with
    | nil =>
      have hmem : c ∈ added := by simp [show added = c :: after from hcommand.symm]
      simp [hquiet c hmem] at hc
    | cons d rest =>
      obtain ⟨rfl, -⟩ := List.cons.inj hcommand
      have hmem : c ∈ shown := by simp [hrest]
      refine ⟨hshown c hmem, hstate (List.ne_nil_of_mem hmem), middle, rfl, fun d hd => ?_⟩
      exact (hshown d (by simp [hrest, hd])).paints
  · have hmem : c ∈ added := by simp [hrest]
    simp [hquiet c hmem] at hc

end Machine

/-! ## Runs -/

namespace DrawRun

variable {ratio : Float32} {run : DrawRun} {s t : DrawStep} {noted : List DrawCommand}
variable {c : DrawCommand}

theorem paintsFirst_step (s : DrawStep) (run : DrawRun) :
    run.machine.PaintsFirst (run.step ratio s).machine := by
  obtain ⟨m, outer⟩ := run
  have hclosed : m.Quiet m.close := (m.moves_close : Machine.Moves False False m m.close).quiet
  cases s with
  | perform r o hname => exact Machine.paintsFirst_perform hname m
  | beginLayers | endLayers => exact (Machine.quiet_emit rfl m).paintsFirst
  | image r s => exact Machine.paintsFirst_drawImage r s _ m
  | beginForm store d =>
    have hsurrounded : Machine.Moves False False m (m.surround store d) := m.moves_surround store d
    exact (hsurrounded.quiet.trans (Machine.quiet_of_commands_eq rfl)).paintsFirst
  | endForm =>
    cases outer with
    | nil => exact (Machine.quiet_of_commands_eq rfl).paintsFirst
    | cons n outer =>
      have hrestored (m : Machine) : Machine.Moves False False m m.restore :=
        (Machine.Move.restore m).moves
      have hleft : m.Quiet (m.close.leave n) := hclosed.trans (Machine.quiet_of_commands_eq rfl)
      exact (hleft.trans (hrestored _).quiet).paintsFirst
  | endPage => exact hclosed.paintsFirst

theorem prefix_commands_steps (steps : List DrawStep) (run : DrawRun) :
    run.machine.commands.toList <+: (run.steps ratio steps).machine.commands.toList := by
  induction steps generalizing run with
  | nil => exact List.prefix_rfl
  | cons s steps ih => exact (paintsFirst_step s run).prefix_commands.trans (ih _)

/-- Each command is noted in some step. -/
theorem exists_notes {steps : List DrawStep} {after : List DrawCommand}
    (hbefore : run.machine.commands.toList <+: noted)
    (h : (run.steps ratio steps).machine.commands.toList = noted ++ c :: after) :
    ∃ earlier s later, steps = earlier ++ s :: later ∧
      (run.steps ratio earlier).machine.Notes ((run.steps ratio earlier).step ratio s).machine
        noted c := by
  induction steps generalizing run with
  | nil =>
    have hlength := hbefore.length_le
    rw [steps_nil] at h
    simp [h] at hlength
  | cons s steps ih =>
    have hnoted : noted ++ [c] <+: ((run.step ratio s).steps ratio steps).machine.commands.toList :=
      ⟨after, by rw [← steps_cons, h, List.append_assoc]; rfl⟩
    rcases List.prefix_or_prefix_of_prefix (prefix_commands_steps steps (run.step ratio s)) hnoted
      with hshort | hlong
    · rcases List.prefix_concat_iff.mp hshort with heq | hshort
      · exact ⟨[], s, steps, rfl, hbefore, by simp [heq]⟩
      · obtain ⟨earlier, t, later, rfl, hnotes⟩ := ih hshort h
        exact ⟨s :: earlier, t, later, rfl, hnotes⟩
    · exact ⟨[], s, steps, rfl, hbefore, hlong⟩

/-- No other step notes the same command. -/
theorem notes_unique {earlier others later rest : List DrawStep}
    (hsteps : earlier ++ s :: later = others ++ t :: rest)
    (hs : (run.steps ratio earlier).machine.Notes ((run.steps ratio earlier).step ratio s).machine noted c)
    (ht : (run.steps ratio others).machine.Notes ((run.steps ratio others).step ratio t).machine noted c) :
    earlier = others := by
  -- If one of the steps came before the other, the later one would begin with the command noted.
  have habsurd {earlier : List DrawStep} {s t : DrawStep} {more : List DrawStep}
      (hs : (run.steps ratio earlier).machine.Notes
        ((run.steps ratio earlier).step ratio s).machine noted c)
      (ht : (run.steps ratio (earlier ++ s :: more)).machine.Notes
        ((run.steps ratio (earlier ++ s :: more)).step ratio t).machine noted c) : False := by
    have hbefore := ht.before
    rw [steps_append, steps_cons] at hbefore
    have hlength := ((hs.after.trans (prefix_commands_steps more _)).trans hbefore).length_le
    simp at hlength
  rcases List.append_eq_append_iff.mp hsteps with ⟨more, rfl, hmore⟩ | ⟨more, rfl, hmore⟩
  · cases more with
    | nil => simp
    | cons _ more =>
      obtain ⟨rfl, -⟩ := List.cons.inj hmore
      exact (habsurd hs ht).elim
  · cases more with
    | nil => simp
    | cons _ more =>
      obtain ⟨rfl, -⟩ := List.cons.inj hmore
      exact (habsurd ht hs).elim

end DrawRun

namespace Quantity

variable {α : Type} {q : Quantity α}

theorem followAll_of_paints {commands : List DrawCommand} (h : ∀ c ∈ commands, c.paints = true)
    (start : List α) : q.followAll start commands = start := by
  induction commands with
  | nil => rfl
  | cons c commands ih =>
    obtain ⟨hc, hcommands⟩ := List.forall_mem_cons.mp h
    have hkept : q.follow start c = start := by
      cases c <;> cases hc <;> cases start <;> rfl
    rw [followAll, List.foldl_cons, hkept]
    exact ih hcommands

end Quantity

/-- Before a command that paints, the list tells the state of the machine that is about to paint. -/
theorem DrawRun.Sound.tells_noted {α : Type} {q : Quantity α} {start : List α} {ratio : Float32}
    {run : DrawRun} {s : DrawStep} {noted : List DrawCommand} {c : DrawCommand} (h : run.Sound q start)
    (hnotes : run.machine.Notes (run.step ratio s).machine noted c) (hc : c.paints = true) :
    (q.followAll start noted).head? = some (q.ofState run.machine.state) := by
  obtain ⟨-, -, shown, rfl, hshown⟩ := hnotes.of_paintsFirst hc (paintsFirst_step s run)
  rw [Quantity.followAll_append, h.tells, Quantity.followAll_of_paints hshown]
  rfl

/-! ## Draw lists -/

/-- At the start of a page the commands tell the state, which is the only one. -/
theorem DrawRun.sound_start {α : Type} {q : Quantity α} (session : DrawSession) (transform : Affine)
    {start : List α}
    (h : q.follow start (.state (.transform transform)) =
      [q.ofState ⟨transform, .gray, .black, .gray, {}, false⟩]) :
    (DrawRun.start session transform).Sound q start := ⟨h, trivial⟩

/-- Each command of a draw list that paints is noted in some step of the page. -/
theorem DrawRun.exists_notes_ofPage {session : DrawSession} {config : ImageConfig} {r : Resources}
    {transform : Affine} {content : Bytes} {noted after : List DrawCommand} {c : DrawCommand}
    (hc : c.paints = true) (hdrawn : (session.draw config r transform content).1 = noted ++ c :: after) :
    ∃ earlier s later, DrawStep.ofPage r content = earlier ++ s :: later ∧
      ((start session transform).steps config.blackRatio earlier).machine.Notes
        (((start session transform).steps config.blackRatio earlier).step config.blackRatio s).machine
        noted c := by
  rw [steps_ofPage] at hdrawn
  refine exists_notes ?_ hdrawn
  have hstart : [.state (.transform transform)] <+: noted ++ c :: after := by
    rw [← hdrawn]
    exact prefix_commands_steps (DrawStep.ofPage r content) (start session transform)
  cases noted with
  | nil =>
    obtain ⟨rfl, -⟩ := List.cons_prefix_cons.mp hstart
    cases hc
  | cons d noted =>
    obtain ⟨rfl, -⟩ := List.cons_prefix_cons.mp hstart
    exact ⟨noted, rfl⟩

/-- The steps of a page give its draw list, which tells the transform and the color of areas in all states of
the machine after any of them. So the color that an image is noted with is the one told before it. -/
theorem draw_tells_paint (session : DrawSession) (config : ImageConfig) (r : Resources)
    (transform : Affine) (content : Bytes) (start : Affine) :
    (session.draw config r transform content).1 =
      ((DrawRun.start session transform).steps config.blackRatio
        (DrawStep.ofPage r content)).machine.commands.toList ∧
    (∀ earlier, earlier <+: DrawStep.ofPage r content →
      let m := ((DrawRun.start session transform).steps config.blackRatio earlier).machine
      m.commands.toList <+: (session.draw config r transform content).1 ∧
      m.Tells Quantity.paint [(start, .black)]) ∧
    ∀ noted number stream resources fill after,
      (session.draw config r transform content).1 =
        noted ++ .image number stream resources fill :: after →
      (Quantity.paint.followAll [(start, .black)] noted).head?.map Prod.snd = some fill := by
  have hsound (earlier : List DrawStep) :
      ((DrawRun.start session transform).steps config.blackRatio earlier).Sound Quantity.paint
        [(start, .black)] :=
    (DrawRun.sound_start session transform rfl).steps Quantity.isNoted_paint
      fun _ _ _ => Quantity.ignoresStyle_paint
  refine ⟨DrawRun.steps_ofPage session config r transform content, ?_, ?_⟩
  · rintro earlier ⟨later, hlater⟩
    rw [DrawRun.steps_ofPage, ← hlater, DrawRun.steps_append]
    exact ⟨DrawRun.prefix_commands_steps later _, (hsound earlier).tells⟩
  · intro noted number stream resources fill after hdrawn
    obtain ⟨earlier, s, later, -, hnotes⟩ := DrawRun.exists_notes_ofPage rfl hdrawn
    obtain ⟨hfill, -⟩ := hnotes.of_paintsFirst rfl (DrawRun.paintsFirst_step s _)
    rw [(hsound earlier).tells_noted hnotes rfl]
    exact congrArg some hfill.symm

/-- Resources with one image, under the name `A`. -/
def Resources.withImage : Resources where
  store := .empty
  innermost :=
    ⟨.empty, .ofList [("A", .stream ⟨.ofList [("Subtype", .name "Image")], [], none⟩)], .empty, .empty⟩

theorem draw_tells_paint_grayImage :
    ∃ noted number stream resources fill after,
      (DrawSession.draw {} {} .withImage .identity (.ofAscii "q 0 g /A Do Q")).1 =
        noted ++ .image number stream resources fill :: after ∧
      (Quantity.paint.followAll [(.identity, .black)] noted).head?.map Prod.snd = some fill := by
  obtain ⟨fill, hdrawn⟩ : ∃ fill,
      (DrawSession.draw {} {} .withImage .identity (.ofAscii "q 0 g /A Do Q")).1 =
        [.state (.transform .identity), .state .push, .state (.fillColor fill)] ++
          .image 0 ⟨.ofList [("Subtype", .name "Image")], [], none⟩ .withImage fill :: [.state .pop] :=
    ⟨_, rfl⟩
  obtain ⟨-, -, htold⟩ := draw_tells_paint {} {} .withImage .identity (.ofAscii "q 0 g /A Do Q") .identity
  exact ⟨_, _, _, _, _, _, hdrawn, htold _ _ _ _ _ _ hdrawn⟩

/-- A line is drawn in one step of the page, which keeps the state. The draw list tells the style of the line
there, unless a step before it hid a change. -/
theorem draw_tells_lineStyle (session : DrawSession) (config : ImageConfig) (r : Resources)
    (transform : Affine) (content : Bytes) (noted : List DrawCommand) (path : Path)
    (after : List DrawCommand)
    (hdrawn : (session.draw config r transform content).1 = noted ++ .stroke path :: after) :
    ∃ earlier s later, DrawStep.ofPage r content = earlier ++ s :: later ∧
      let before := (DrawRun.start session transform).steps config.blackRatio earlier
      before.machine.Notes (before.step config.blackRatio s).machine noted (.stroke path) ∧
      (before.step config.blackRatio s).machine.state = before.machine.state ∧
      ((∀ t ∈ earlier, t.hidesStyle = false) →
        (Quantity.lineStyle.followAll [{}] noted).head? = some before.machine.state.style) := by
  obtain ⟨earlier, s, later, hsteps, hnotes⟩ := DrawRun.exists_notes_ofPage rfl hdrawn
  obtain ⟨-, hstate, -⟩ := hnotes.of_paintsFirst rfl (DrawRun.paintsFirst_step s _)
  refine ⟨earlier, s, later, hsteps, hnotes, hstate, fun hhidden => ?_⟩
  have hsound : ((DrawRun.start session transform).steps config.blackRatio earlier).Sound
      Quantity.lineStyle [{}] :=
    (DrawRun.sound_start session transform rfl).steps Quantity.isNoted_lineStyle
      fun t ht h => by simp [hhidden t ht] at h
  exact hsound.tells_noted hnotes rfl

/-- Resources with one graphics state, under the name `G`. -/
def Resources.withState (entries : List (Name × Object)) : Resources where
  store := .empty
  innermost := ⟨.empty, .empty, .ofList [("G", .dict (.ofList entries))], .empty⟩

/-- Content that draws a line in the graphics state `G`. -/
def styledLine : Bytes := .ofAscii "q /G gs 0 0 m S Q"

/-- The steps of that content before the line. -/
def styledLineSteps (r : Resources) (p : Point) : List DrawStep :=
  [.perform r .save rfl, .perform r (.graphicsState "G") rfl, .perform r (.move p) rfl]

theorem ofPage_styledLine (r : Resources) : ∃ p, DrawStep.ofPage r styledLine =
    styledLineSteps r p ++ .perform r (.paint false none true) rfl :: [.perform r .restore rfl, .endPage] :=
  ⟨_, rfl⟩

theorem draw_tells_lineStyle_roundCap :
    ∃ noted path after,
      (DrawSession.draw {} {} (.withState [("LC", .ofInt 1)]) .identity styledLine).1 =
        noted ++ .stroke path :: after ∧
      ∃ (run : DrawRun) (s : DrawStep), run.machine.Notes (run.step 1 s).machine noted (.stroke path) ∧
        run.machine.state.style.cap = .round ∧
        (Quantity.lineStyle.followAll [{}] noted).head? = some run.machine.state.style := by
  obtain ⟨p, hpage⟩ := ofPage_styledLine (.withState [("LC", .ofInt 1)])
  let noted : List DrawCommand :=
    [.state (.transform .identity), .state .push, .state (.strokeStyle { cap := .round })]
  have hdrawn : (DrawSession.draw {} {} (.withState [("LC", .ofInt 1)]) .identity styledLine).1 =
      noted ++ .stroke #[.move p] :: [.state .pop] := by
    rw [DrawRun.steps_ofPage, hpage]
    rfl
  have hshown : ∀ s ∈ DrawStep.ofPage (.withState [("LC", .ofInt 1)]) styledLine,
      s.hidesStyle = false := by decide +kernel
  obtain ⟨earlier, s, later, hsteps, hnotes, -, htold⟩ := draw_tells_lineStyle _ _ _ _ _ _ _ _ hdrawn
  have htold := htold fun t ht => hshown t (hsteps ▸ List.mem_append_left _ ht)
  refine ⟨noted, _, _, hdrawn, _, s, hnotes, ?_, htold⟩
  exact (congrArg StrokeStyle.cap (Option.some.inj htold)).symm

/-- A graphics state that changes the ends of lines, with an array for dashes that holds no lengths. -/
def hiddenCap : Resources := .withState [("LC", .ofInt 1), ("D", .array [.ofInt 1])]

/-- A change that is hidden is not told at the line that is drawn after it. -/
theorem not_forall_draw_tells_lineStyle :
    ¬ ∀ (session : DrawSession) (config : ImageConfig) (r : Resources) (transform : Affine)
      (content : Bytes) (noted : List DrawCommand) (path : Path) (after : List DrawCommand),
      (session.draw config r transform content).1 = noted ++ .stroke path :: after →
      ∃ earlier s later, DrawStep.ofPage r content = earlier ++ s :: later ∧
        let before := (DrawRun.start session transform).steps config.blackRatio earlier
        before.machine.Notes (before.step config.blackRatio s).machine noted (.stroke path) ∧
        (Quantity.lineStyle.followAll [{}] noted).head? = some before.machine.state.style := by
  intro h
  obtain ⟨p, hpage⟩ := ofPage_styledLine hiddenCap
  have hdrawn : (DrawSession.draw {} {} hiddenCap .identity styledLine).1 =
      [.state (.transform .identity), .state .push] ++ .stroke #[.move p] :: [.state .pop] := by
    rw [DrawRun.steps_ofPage, hpage]
    rfl
  obtain ⟨earlier, s, later, hsteps, hnotes, htold⟩ := h _ _ _ _ _ _ _ _ hdrawn
  obtain rfl := DrawRun.notes_unique (hsteps.symm.trans hpage) hnotes ⟨List.prefix_rfl, List.prefix_rfl⟩
  have hcap : some LineCap.butt = some LineCap.round := congrArg (Option.map StrokeStyle.cap) htold
  cases hcap

end Folio
