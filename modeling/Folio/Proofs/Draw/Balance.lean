import Folio.Proofs.Content.Progress
import Folio.Proofs.Draw.Moves

/-!
# Draw lists are balanced

A saved state is restored, and layers that are entered are left, each in the content stream in which that
was begun. Main statement: `draw_balanced`, the commands of both kinds come in pairs in every draw list,
and so they do among the commands of each external object by itself, however many forms are nested in it
and whether or not they draw each other.

A move keeps the number of open pairs with the state of the machine (`Move.goesOn`). A content stream
begins without any and closes all (`balanced_execute`), so a form leaves those around it alone.
-/

namespace Folio

/-- The two kinds of commands that come in pairs. -/
inductive Bracket where
  | state
  | layer

namespace Bracket

/-- Whether a command begins a pair. -/
def opens : Bracket → DrawCommand → Bool
  | state, .state .push => true
  | layer, .pushLayer _ => true
  | _, _ => false

/-- Whether a command ends a pair. -/
def closes : Bracket → DrawCommand → Bool
  | state, .state .pop => true
  | layer, .popLayer => true
  | _, _ => false

/-- Whether the commands of a kind come in pairs: as many pairs end as begin, and none ends before it
has begun. -/
def Balanced (b : Bracket) (commands : List DrawCommand) : Prop :=
  commands.countP b.opens = commands.countP b.closes ∧
    ∀ before, before <+: commands → before.countP b.closes ≤ before.countP b.opens

/-- Whether `k` pairs are open after some commands if `n` were open before them. -/
def Leads (b : Bracket) (n : Nat) (commands : List DrawCommand) (k : Nat) : Prop :=
  n + commands.countP b.opens = k + commands.countP b.closes ∧
    ∀ before, before <+: commands → before.countP b.closes ≤ n + before.countP b.opens

variable {b : Bracket} {n k l : Nat} {commands first second : List DrawCommand} {c : DrawCommand}

theorem balanced_iff : b.Balanced commands ↔ b.Leads 0 commands 0 := by
  simp [Balanced, Leads]

theorem leads_nil : b.Leads n [] n := by
  simp [Leads]

theorem leads_singleton (h : n + [c].countP b.opens = k + [c].countP b.closes) : b.Leads n [c] k := by
  refine ⟨h, fun before hbefore => ?_⟩
  rcases List.prefix_cons_iff.mp hbefore with rfl | ⟨tail, rfl, htail⟩
  · simp
  · rw [List.prefix_nil.mp htail]
    omega

theorem Leads.append (hfirst : b.Leads n first k) (hsecond : b.Leads k second l) :
    b.Leads n (first ++ second) l := by
  obtain ⟨hfirst, hfirstBefore⟩ := hfirst
  obtain ⟨hsecond, hsecondBefore⟩ := hsecond
  refine ⟨?_, fun before hbefore => ?_⟩
  · rw [List.countP_append, List.countP_append]
    omega
  · rcases List.prefix_or_prefix_of_prefix hbefore (List.prefix_append first second) with h | ⟨tail, rfl⟩
    · exact hfirstBefore before h
    · have := hsecondBefore tail ((List.prefix_append_right_inj first).mp hbefore)
      rw [List.countP_append, List.countP_append]
      omega

/-- Pairs that are open all the time make no difference. -/
theorem Leads.add (h : b.Leads n commands k) (l : Nat) : b.Leads (n + l) commands (k + l) := by
  obtain ⟨h, hbefore⟩ := h
  refine ⟨by omega, fun before hprefix => ?_⟩
  have := hbefore before hprefix
  omega

theorem Balanced.leads (h : b.Balanced commands) (n : Nat) : b.Leads n commands n := by
  have := (balanced_iff.mp h).add n
  rwa [Nat.zero_add] at this

theorem Balanced.append (hfirst : b.Balanced first) (hsecond : b.Balanced second) :
    b.Balanced (first ++ second) :=
  balanced_iff.mpr ((balanced_iff.mp hfirst).append (balanced_iff.mp hsecond))

/-- What is done between the beginning and the end of a pair comes in pairs with them. -/
theorem Balanced.surround {d : DrawCommand} (h : b.Balanced commands)
    (hpair : b.opens c = b.closes d ∧ b.closes c = false ∧ b.opens d = false) :
    b.Balanced (c :: commands ++ [d]) := by
  obtain ⟨hpair, hc, hd⟩ := hpair
  have hbegin : b.Leads 0 [c] ([c].countP b.opens) := leads_singleton (by simp [hc])
  have hend : b.Leads ([c].countP b.opens) [d] 0 :=
    leads_singleton (by simp [List.countP_cons, hpair, hd])
  exact balanced_iff.mpr ((hbegin.append (h.leads _)).append hend)

end Bracket

namespace Machine

variable {m n o : Machine} {painting silent : Prop} {ratio : Float32} {drawForm : FormDrawing}
variable {r : Resources}

/-- The number of pairs that are open in the content stream being executed. -/
def opened (m : Machine) : Bracket → Nat
  | .state => m.saved.length
  | .layer => m.marked.count true

/-- Whether a machine has gone on from another one in the same content stream, ending only pairs that
were begun in it. -/
def GoesOn (m n : Machine) : Prop :=
  ∃ added, n.commands.toList = m.commands.toList ++ added ∧
    ∀ b : Bracket, b.Leads (m.opened b) added (n.opened b)

/-- What a machine has gone on by comes in pairs by itself, and what was open is open still. -/
structure GoesAround (m n : Machine) : Prop where
  commands : ∃ added, n.commands.toList = m.commands.toList ++ added ∧
    ∀ b : Bracket, b.Balanced added
  saved : n.saved = m.saved
  marked : n.marked = m.marked

theorem GoesOn.refl (m : Machine) : m.GoesOn m := ⟨[], by simp, fun _ => Bracket.leads_nil⟩

theorem GoesOn.trans (hfirst : m.GoesOn n) (hsecond : n.GoesOn o) : m.GoesOn o := by
  obtain ⟨first, hn, hfirst⟩ := hfirst
  obtain ⟨second, ho, hsecond⟩ := hsecond
  exact ⟨first ++ second, by rw [ho, hn, List.append_assoc], fun b => (hfirst b).append (hsecond b)⟩

theorem goesOn_of_push {c : DrawCommand} (hcommands : n.commands = m.commands.push c)
    (hopened : ∀ b : Bracket, m.opened b + [c].countP b.opens = n.opened b + [c].countP b.closes) :
    m.GoesOn n :=
  ⟨[c], by simp [hcommands], fun b => Bracket.leads_singleton (hopened b)⟩

theorem goesAround_of_commands (hcommands : n.commands = m.commands) (hsaved : n.saved = m.saved)
    (hmarked : n.marked = m.marked) : m.GoesAround n :=
  ⟨⟨[], by simp [hcommands], fun _ => Bracket.balanced_iff.mpr Bracket.leads_nil⟩, hsaved, hmarked⟩

theorem GoesAround.trans (hfirst : m.GoesAround n) (hsecond : n.GoesAround o) : m.GoesAround o := by
  obtain ⟨first, hn, hfirstBalanced⟩ := hfirst.commands
  obtain ⟨second, ho, hsecondBalanced⟩ := hsecond.commands
  exact ⟨⟨first ++ second, by rw [ho, hn, List.append_assoc],
    fun b => (hfirstBalanced b).append (hsecondBalanced b)⟩,
    hsecond.saved.trans hfirst.saved, hsecond.marked.trans hfirst.marked⟩

theorem GoesAround.goesOn (h : m.GoesAround n) : m.GoesOn n := by
  obtain ⟨added, hadded, hbalanced⟩ := h.commands
  refine ⟨added, hadded, fun b => ?_⟩
  have hopened : n.opened b = m.opened b := by cases b <;> simp [opened, h.saved, h.marked]
  rw [hopened]
  exact (hbalanced b).leads _

/-- A command that belongs to no pair may be noted anywhere. -/
theorem goesAround_emit {c : DrawCommand}
    (hc : ∀ b : Bracket, b.opens c = false ∧ b.closes c = false) (m : Machine) :
    m.GoesAround (m.emit c) where
  commands := by
    refine ⟨[c], by simp [emit], fun b => Bracket.balanced_iff.mpr (Bracket.leads_singleton ?_)⟩
    obtain ⟨hopens, hcloses⟩ := hc b
    simp [hopens, hcloses]
  saved := rfl
  marked := rfl

/-! ## Moves -/

theorem goesOn_of_outline (h : n.outline = m.outline) : m.GoesOn n := by
  have hcommands : n.commands = m.commands := congrArg Outline.commands h
  have hsaved : n.saved = m.saved := congrArg Outline.saved h
  have hmarked : n.marked = m.marked := congrArg Outline.marked h
  exact (goesAround_of_commands hcommands hsaved hmarked).goesOn

theorem goesOn_restore (m : Machine) : m.GoesOn m.restore := by
  cases hsaved : m.saved with
  | nil =>
    rw [restore, hsaved]
    exact .refl m
  | cons s saved =>
    rw [restore, hsaved]
    refine goesOn_of_push rfl fun b => ?_
    cases b <;> simp [opened, hsaved, emit, Bracket.opens, Bracket.closes]

theorem goesOn_beginMarked (membership : Option Membership) (m : Machine) :
    m.GoesOn (m.beginMarked membership) := by
  cases membership with
  | none =>
    refine ⟨[], by simp [beginMarked], fun b => ?_⟩
    cases b <;> simp [opened, beginMarked, Bracket.leads_nil]
  | some layers =>
    refine goesOn_of_push rfl fun b => ?_
    cases b <;> simp [opened, beginMarked, emit, Bracket.opens, Bracket.closes]

theorem goesOn_endMarked (m : Machine) : m.GoesOn m.endMarked := by
  cases hmarked : m.marked with
  | nil =>
    rw [endMarked, hmarked]
    exact .refl m
  | cons layered marked =>
    rw [endMarked, hmarked]
    cases layered with
    | false =>
      refine ⟨[], by simp, fun b => ?_⟩
      cases b <;> simp [opened, hmarked, Bracket.leads_nil]
    | true =>
      refine goesOn_of_push rfl fun b => ?_
      cases b <;> simp [opened, hmarked, emit, Bracket.opens, Bracket.closes]

theorem goesOn_setColor (ratio : Float32) (stroke : Bool) (space : ColorSpace)
    (components : List Float32) (m : Machine) :
    m.GoesOn (m.setColor ratio stroke space components) := by
  unfold setColor
  split <;> exact goesOn_of_push rfl fun b => by cases b <;> rfl

theorem goesOn_save (m : Machine) : m.GoesOn m.save := by
  refine goesOn_of_push rfl fun b => ?_
  cases b <;> simp [opened, save, emit, Bracket.opens, Bracket.closes]

theorem Move.goesOn (h : Move painting silent m n) : m.GoesOn n := by
  cases h with
  | inner h => exact goesOn_of_outline h
  | paint c hc =>
    refine (goesAround_emit (fun b => ?_) m).goesOn
    cases c <;> cases hc <;> cases b <;> exact ⟨rfl, rfl⟩
  | alpha | clip => exact (goesAround_emit (fun b => by cases b <;> exact ⟨rfl, rfl⟩) m).goesOn
  | concat t =>
    refine goesOn_of_push rfl fun b => ?_
    cases b <;> rfl
  | setColor ratio stroke space components => exact goesOn_setColor ratio stroke space components m
  | restyle change =>
    refine goesOn_of_push rfl fun b => ?_
    cases b <;> rfl
  | hide change => exact (goesAround_of_commands rfl rfl rfl).goesOn
  | save => exact goesOn_save m
  | restore => exact goesOn_restore m
  | beginMarked membership => exact goesOn_beginMarked membership m
  | endMarked => exact goesOn_endMarked m

theorem Moves.goesOn (h : Moves painting silent m n) : m.GoesOn n := by
  induction h with
  | refl => exact .refl m
  | tail _ hmove ih => exact ih.trans hmove.goesOn

/-! ## External objects and content streams -/

/-- Whether drawing a form leaves all pairs of the content around it open. -/
def Contained (drawForm : FormDrawing) : Prop :=
  ∀ (r : Resources) (s : Stream) (m : Machine), m.GoesAround (drawForm r s m)

theorem goesAround_within {draw : Machine → Machine} (h : ∀ m : Machine, m.GoesAround (draw m))
    (membership : Option Membership) (m : Machine) : m.GoesAround (m.within membership draw) := by
  cases membership with
  | none => exact h m
  | some layers =>
    obtain ⟨⟨added, hadded, hbalanced⟩, hsaved, hmarked⟩ := h (m.emit (.pushLayer layers))
    refine ⟨⟨.pushLayer layers :: added ++ [.popLayer], ?_, fun b => (hbalanced b).surround ?_⟩,
      hsaved, hmarked⟩
    · simp only [within, emit, Array.toList_push] at hadded ⊢
      rw [hadded]
      simp
    · cases b <;> exact ⟨rfl, rfl, rfl⟩

theorem goesAround_drawXObject (h : Contained drawForm) (s : Stream) (m : Machine) :
    m.GoesAround (m.drawXObject drawForm r s) := by
  unfold drawXObject
  refine goesAround_within (fun m => ?_) _ m
  split
  · have hplaced : m.GoesAround { m with gallery := (m.gallery.place s).2 } :=
      goesAround_of_commands rfl rfl rfl
    exact hplaced.trans (goesAround_emit (fun b => by cases b <;> exact ⟨rfl, rfl⟩) _)
  · split
    · exact h r s m
    · exact goesAround_of_commands rfl rfl rfl

theorem goesOn_perform (h : Contained drawForm) (m : Machine) (o : Operation) :
    m.GoesOn (m.perform ratio drawForm r o) := by
  cases hname : o.xObject? with
  | none =>
    have hmoves : Moves True True m (m.perform ratio drawForm r o) :=
      moves_perform hname (fun _ => trivial) (fun _ => trivial) m
    exact hmoves.goesOn
  | some n =>
    obtain rfl := Operation.eq_xObject hname
    simp only [perform]
    cases r.xObject? n with
    | none => exact .refl m
    | some s => exact (goesAround_drawXObject h s m).goesOn

/-- A content stream begins without open pairs and leaves none open. -/
theorem goesAround_execute (h : Contained drawForm) (content : Bytes) (hsaved : m.saved = [])
    (hmarked : m.marked = []) : m.GoesAround (m.execute ratio drawForm r content) := by
  have hperformed (operations : List Operation) (m : Machine) :
      m.GoesOn (operations.foldl (perform ratio drawForm r) m) := by
    induction operations generalizing m with
    | nil => exact .refl m
    | cons o operations ih => exact (goesOn_perform h m o).trans (ih _)
  have hclosed (m : Machine) : m.GoesOn m.close := (moves_close m : Moves True True m m.close).goesOn
  obtain ⟨added, hadded, hleads⟩ := (hperformed _ m).trans (hclosed _)
  refine ⟨⟨added, hadded, fun b => Bracket.balanced_iff.mpr ?_⟩, ?_, ?_⟩
  · have hleads := hleads b
    cases b <;> simpa [opened, hsaved, hmarked, saved_close, marked_close] using hleads
  · exact (saved_close _).trans hsaved.symm
  · exact (marked_close _).trans hmarked.symm

theorem goesAround_of_save (h : m.save.GoesAround n) : m.GoesAround n.restore := by
  obtain ⟨⟨added, hadded, hbalanced⟩, hsaved, hmarked⟩ := h
  have hrestored : n.restore = { n with state := m.state, saved := m.saved }.emit (.state .pop) := by
    rw [restore, hsaved]
    rfl
  rw [hrestored]
  refine ⟨⟨.state .push :: added ++ [.state .pop], ?_, fun b => (hbalanced b).surround ?_⟩, rfl, hmarked⟩
  · simp only [save, emit, Array.toList_push] at hadded ⊢
    rw [hadded]
    simp
  · cases b <;> exact ⟨rfl, rfl, rfl⟩

theorem goesAround_surround (store : Store) (d : Dict) (m : Machine) :
    m.save.GoesAround (m.surround store d) := by
  have hmoved (ctm : Affine) :
      m.save.GoesAround { m.save with state := { m.save.state with ctm } } :=
    goesAround_of_commands rfl rfl rfl
  have htransformed : m.save.GoesAround (m.save.concat (formTransform store d)) :=
    (hmoved _).trans (goesAround_emit (fun b => by cases b <;> exact ⟨rfl, rfl⟩) _)
  unfold surround
  cases formBox? store d with
  | none => exact htransformed
  | some box =>
    exact htransformed.trans (goesAround_emit (fun b => by cases b <;> exact ⟨rfl, rfl⟩) _)

/-- The content of a form begins without open pairs, so nothing around it is ended. -/
theorem goesAround_drawFormContent (store : Store) (d : Dict) {draw : Machine → Machine}
    (h : ∀ m : Machine, m.saved = [] → m.marked = [] → m.GoesAround (draw m)) (m : Machine) :
    m.GoesAround (m.drawFormContent store d draw) := by
  have hdrawn : (m.surround store d).GoesAround
      ((draw (m.surround store d).enter).leave (m.surround store d)) :=
    ⟨(h (m.surround store d).enter rfl rfl).commands, rfl, rfl⟩
  exact goesAround_of_save ((goesAround_surround store d m).trans hdrawn)

theorem contained_drawFormWithin (levels : Nat) (active : List Ref) :
    Contained (drawFormWithin ratio levels active) := by
  induction levels generalizing active with
  | zero => exact fun _ _ _ => goesAround_of_commands rfl rfl rfl
  | succ levels ih =>
    intro r form m
    rw [drawFormWithin]
    split
    · exact goesAround_of_commands rfl rfl rfl
    · cases form.decoded r.store with
      | error _ => exact goesAround_of_commands rfl rfl rfl
      | ok content =>
        exact goesAround_drawFormContent _ _ (fun m => goesAround_execute (ih _) content) m

end Machine

/-- In every draw list the commands of both kinds come in pairs, and so do those of each external object by
itself. Content streams come to an end: bounds above their length on what is read make no difference. -/
theorem draw_balanced (session : DrawSession) (config : ImageConfig) (r : Resources)
    (transform : Affine) (content : Bytes) :
    (∀ (data : Bytes) (bound : Nat), data.length < bound →
      Content.readInstructions bound data = Content.instructions data ∧
      ∀ operands, Content.nextInstruction? bound operands data =
        Content.nextInstruction? (data.length + 1) operands data) ∧
    (session.draw config r transform content).1.head? = some (.state (.transform transform)) ∧
    (∀ b : Bracket, b.Balanced (session.draw config r transform content).1) ∧
    ∀ (levels : Nat) (active : List Ref) (inner : Resources) (n : Name) (m : Machine), ∃ added,
      (m.perform config.blackRatio (Machine.drawFormWithin config.blackRatio levels active) inner
        (.xObject n)).commands.toList = m.commands.toList ++ added ∧
      ∀ b : Bracket, b.Balanced added := by
  refine ⟨fun data bound h => ⟨Content.readInstructions_of_length_le h.le, fun operands => ?_⟩, ?_⟩
  · obtain ⟨more, rfl⟩ := Nat.exists_eq_add_of_le (Nat.succ_le_of_lt h)
    exact Content.nextInstruction?_of_length_lt (Nat.lt_succ_self _) more
  have hcontained (levels : Nat) (active : List Ref) :
      Machine.Contained (Machine.drawFormWithin config.blackRatio levels active) :=
    Machine.contained_drawFormWithin levels active
  let started := (DrawRun.start session transform).machine
  have haround : started.GoesAround (started.execute config.blackRatio
      (Machine.drawFormWithin config.blackRatio Machine.maxFormLevels []) r content) :=
    Machine.goesAround_execute (hcontained _ _) content rfl rfl
  obtain ⟨added, hadded, hbalanced⟩ := haround.commands
  have hdrawn : (session.draw config r transform content).1 =
      .state (.transform transform) :: added := hadded
  refine ⟨by rw [hdrawn]; rfl, fun b => ?_, fun levels active inner n m => ?_⟩
  · have hfirst : b.Balanced [.state (.transform transform)] :=
      Bracket.balanced_iff.mpr (Bracket.leads_singleton (by cases b <;> rfl))
    rw [hdrawn]
    exact hfirst.append (hbalanced b)
  · simp only [Machine.perform]
    cases inner.xObject? n with
    | none => exact (Machine.goesAround_of_commands rfl rfl rfl).commands
    | some s => exact (Machine.goesAround_drawXObject (hcontained levels active) s m).commands

end Folio
