import Folio.Proofs.Draw.Gallery
import Folio.Proofs.Draw.Mask

/-!
# Pages drawn one after the other

What a session keeps from one page to the next matters in two cases. An image with the reference of one that
was met before is taken for it, and a path that goes on without having begun starts where the last path was.
Main statement: `draw_after`, in all other cases a page is drawn as if it were the first one, up to the numbers
of its images.

Two runs of the same steps are compared step by step, with masks over what they keep (`Alike.steps`). The
images that they show follow from the streams met so far (`Gallery.Knows`).
-/

namespace Folio

/-! ## Two runs of the same steps -/

namespace DrawStep

/-- The external image that a step draws, if it draws one. -/
def images : DrawStep → List Stream
  | .image _ s => [s]
  | _ => []

/-- Whether a step begins a part of a path. -/
def beginsPath : DrawStep → Bool
  | .perform _ o _ => o.beginsPath
  | _ => false

/-- Whether a step goes on with a path from the current point. -/
def continuesPath : DrawStep → Bool
  | .perform _ o _ => o.continuesPath
  | _ => false

/-- The gallery after a step. -/
def place (g : Gallery) : DrawStep → Gallery
  | .image _ s => (g.place s).2
  | .perform _ o _ => o.inlineImage?.elim g fun s => (g.add s).2
  | _ => g

/-- Whether none of some steps goes on with a path before the first one that begins one. -/
def beginPaths : List DrawStep → Bool
  | [] => true
  | s :: steps => s.beginsPath || !s.continuesPath && beginPaths steps

theorem beginsPath_of_continuesPath {s : DrawStep} (h : s.continuesPath = true) :
    s.beginsPath = false := by
  cases s with
  | perform r o hname => cases o <;> first | rfl | cases h
  | _ => rfl

end DrawStep

/-- The machine without its gallery and the numbers of images and, unless `points` is true, without the points
of its path. -/
def Machine.hide (points : Bool) (m : Machine) : Machine := m.mask (fun _ => 0) {} points

namespace DrawRun

variable {ratio : Float32} {run other : DrawRun} {s : DrawStep} {points : Bool}
variable {met others : List Stream}

theorem gallery_step (s : DrawStep) (run : DrawRun) :
    (run.step ratio s).machine.gallery = s.place run.machine.gallery := by
  cases s with
  | perform r o hname =>
    cases himage : o.inlineImage? with
    | none =>
      simp only [DrawStep.place, himage, Option.elim_none]
      exact Machine.gallery_perform hname himage _
    | some t =>
      obtain rfl := Operation.eq_inlineImage himage
      rfl
  | beginForm store d =>
    exact Machine.gallery_of_mask (f := fun m => m.surround store d) (Machine.mask_surround store d _)
  | endForm =>
    obtain ⟨m, outer⟩ := run
    cases outer with
    | nil => rfl
    | cons n outer => exact (Machine.gallery_restore _).trans m.gallery_close
  | endPage => exact Machine.gallery_close _
  | beginLayers | endLayers | image => rfl

theorem knows_step (h : run.machine.gallery.Knows met) (s : DrawStep) :
    (run.step ratio s).machine.gallery.Knows (met ++ s.images) := by
  rw [gallery_step]
  cases s with
  | image r t => exact (h.place t).1
  | perform r o hname =>
    have hnone : (DrawStep.perform r o hname).images = [] := rfl
    rw [hnone, List.append_nil]
    cases himage : o.inlineImage? with
    | none => simpa [DrawStep.place, himage] using h
    | some t => simpa [DrawStep.place, himage] using h.add t
  | beginLayers | endLayers | beginForm | endForm | endPage =>
    simpa [DrawStep.images, DrawStep.place] using h

theorem knows_steps (h : run.machine.gallery.Knows met) (steps : List DrawStep) :
    (run.steps ratio steps).machine.gallery.Knows (met ++ steps.flatMap DrawStep.images) := by
  induction steps generalizing run met with
  | nil => simpa using h
  | cons s steps ih =>
    rw [List.flatMap_cons, ← List.append_assoc]
    exact ih (knows_step h s)

/-- Whether two runs differ only in their galleries, in the numbers of their images and, unless `points` is
true, in the points of their paths. -/
structure Alike (points : Bool) (run other : DrawRun) : Prop where
  machine : run.machine.hide points = other.machine.hide points
  outer : run.outer.map (Machine.hide false) = other.outer.map (Machine.hide false)

/-- What does the same with a mask as without does the same in two machines under a mask. -/
theorem hide_congr {f : Machine → Machine} {later : Bool} {m n : Machine}
    (hf : ∀ m : Machine, (f m).hide later = f (m.hide points)) (h : m.hide points = n.hide points) :
    (f m).hide later = (f n).hide later := by
  rw [hf, hf, h]

theorem hide_drawImage {m n : Machine} (r : Resources) {t : Stream} {placed replaced : Nat × Gallery}
    (hshown : (placed.2.stream? placed.1).getD t = (replaced.2.stream? replaced.1).getD t)
    (h : m.hide points = n.hide points) :
    (m.drawImage r t placed).hide points = (n.drawImage r t replaced).hide points := by
  have hfill : m.state.fill = n.state.fill := congrArg (fun m => m.state.fill) h
  unfold Machine.hide
  rw [Machine.mask_drawImage, Machine.mask_drawImage, hshown, hfill]
  exact congrArg (Machine.emit _) h

theorem hide_perform {r : Resources} {o : Operation} {m n : Machine} (hname : o.xObject? = none)
    (hpath : o.continuesPath = true → points = true) (h : m.hide points = n.hide points) :
    (m.perform ratio (fun _ _ m => m) r o).hide (points || o.beginsPath) =
      (n.perform ratio (fun _ _ m => m) r o).hide (points || o.beginsPath) := by
  cases himage : o.inlineImage? with
  | some t =>
    obtain rfl := Operation.eq_inlineImage himage
    have hshown (g : Gallery) : ((g.add t).2.stream? (g.add t).1).getD t = t := by
      rw [Gallery.stream?_add_self, Option.getD_some]
    have hkept : (points || (Operation.inlineImage t).beginsPath) = points := Bool.or_false points
    rw [hkept]
    exact hide_drawImage r ((hshown _).trans (hshown _).symm) h
  | none =>
    cases hbegins : o.beginsPath with
    | true =>
      rw [Bool.or_true]
      exact hide_congr (Machine.mask_perform_beginsPath hbegins) h
    | false =>
      rw [Bool.or_false]
      exact hide_congr (Machine.mask_perform hname himage hbegins hpath) h

theorem hide_false {m n : Machine} (h : m.hide points = n.hide points) :
    m.hide false = n.hide false := by
  cases points with
  | false => exact h
  | true =>
    have hhidden (m : Machine) : m.hide false =
        { m.hide true with current := .origin, start := .origin } := rfl
    rw [hhidden, hhidden, h]

theorem Alike.beginForm (h : Alike points run other) (store : Store) (d : Dict) :
    Alike points (run.step ratio (.beginForm store d)) (other.step ratio (.beginForm store d)) := by
  have hsurrounded : (run.machine.surround store d).hide points =
      (other.machine.surround store d).hide points :=
    hide_congr (f := fun m => m.surround store d) (Machine.mask_surround store d) h.machine
  refine ⟨hide_congr (f := Machine.enter) (fun _ => rfl) hsurrounded, ?_⟩
  simp only [step, List.map_cons, h.outer, hide_false hsurrounded]

theorem Alike.endForm (h : Alike points run other) :
    Alike points (run.step ratio .endForm) (other.step ratio .endForm) := by
  obtain ⟨m, outer⟩ := run
  obtain ⟨n, others⟩ := other
  obtain ⟨hmachine, houter⟩ := h
  cases outer with
  | nil =>
    cases others with
    | nil => exact ⟨hmachine, rfl⟩
    | cons => cases houter
  | cons o outer =>
    cases others with
    | nil => cases houter
    | cons p others =>
      obtain ⟨hfirst, houter⟩ := List.cons.inj houter
      refine ⟨hide_congr (f := Machine.restore) Machine.mask_restore ?_, houter⟩
      -- A form is left for the states, the path and the marked content of the machine around it.
      have hleft (m o : Machine) :
          (m.close.leave o).hide points = (m.hide points).close.leave (o.hide false) :=
        congrArg (fun m => m.leave (o.hide false)) (Machine.mask_close m)
      rw [hleft, hleft, hmachine, hfirst]

/-- Two runs that are alike stay so in a step that shows the same image in both, and that does not go on
with a path at points that differ. -/
theorem Alike.step (h : Alike points run other) (hmet : run.machine.gallery.Knows met)
    (hothers : other.machine.gallery.Knows others)
    (himages : ∀ t ∈ s.images, Gallery.shown (met ++ s.images) t = Gallery.shown (others ++ s.images) t)
    (hpath : s.continuesPath = true → points = true) :
    Alike (points || s.beginsPath) (run.step ratio s) (other.step ratio s) := by
  have hkept (hs : s.beginsPath = false) (h : Alike points (run.step ratio s) (other.step ratio s)) :
      Alike (points || s.beginsPath) (run.step ratio s) (other.step ratio s) := by
    rwa [hs, Bool.or_false]
  cases s with
  | perform r o hname => exact ⟨hide_perform hname hpath h.machine, h.outer⟩
  | beginLayers layers =>
    refine hkept rfl ⟨?_, h.outer⟩
    exact hide_congr (f := Machine.emit (.pushLayer layers)) (Machine.mask_emit _) h.machine
  | endLayers =>
    exact hkept rfl ⟨hide_congr (f := Machine.emit .popLayer) (Machine.mask_emit _) h.machine, h.outer⟩
  | image r t =>
    have hshown : (((run.machine.gallery.place t).2.stream? (run.machine.gallery.place t).1).getD t) =
        ((other.machine.gallery.place t).2.stream? (other.machine.gallery.place t).1).getD t := by
      rw [(hmet.place t).2, (hothers.place t).2]
      exact himages t (List.mem_singleton_self t)
    exact hkept rfl ⟨hide_drawImage r hshown h.machine, h.outer⟩
  | beginForm store d => exact hkept rfl (h.beginForm store d)
  | endForm => exact hkept rfl h.endForm
  | endPage => exact hkept rfl ⟨hide_congr (f := Machine.close) Machine.mask_close h.machine, h.outer⟩

/-- Two runs that are alike stay so, if the streams that one of them had met before have no reference of a
different one that both meet, and if the paths begin before they go on. -/
theorem Alike.steps {before : List Stream} {steps : List DrawStep} (h : Alike points run other)
    (hmet : run.machine.gallery.Knows (before ++ met)) (hothers : other.machine.gallery.Knows met)
    (himages : ∀ e ∈ before, ∀ t ∈ met ++ steps.flatMap DrawStep.images, ∀ target,
      e.reference = some target → t.reference = some target → e = t)
    (hpath : points = true ∨ DrawStep.beginPaths steps = true) :
    ∃ points, Alike points (run.steps ratio steps) (other.steps ratio steps) := by
  induction steps generalizing run other met points with
  | nil => exact ⟨points, h⟩
  | cons s steps ih =>
    rw [List.flatMap_cons, ← List.append_assoc] at himages
    have hpathNow (hs : s.continuesPath = true) : points = true := by
      have hbegins := DrawStep.beginsPath_of_continuesPath hs
      simpa [DrawStep.beginPaths, hs, hbegins] using hpath
    have hshown (t : Stream) (ht : t ∈ s.images) :
        Gallery.shown (before ++ met ++ s.images) t = Gallery.shown (met ++ s.images) t := by
      rw [List.append_assoc]
      refine Gallery.shown_append (List.mem_append_right met ht) fun e he t ht => ?_
      exact himages e he t (List.mem_append_left _ ht)
    have hstep : Alike (points || s.beginsPath) (run.step ratio s) (other.step ratio s) :=
      h.step hmet hothers hshown hpathNow
    refine ih hstep ?_ (knows_step hothers s) himages ?_
    · rw [← List.append_assoc]
      exact knows_step hmet s
    · rcases hpath with rfl | hpath
      · exact .inl rfl
      · rw [DrawStep.beginPaths, Bool.or_eq_true, Bool.and_eq_true] at hpath
        exact hpath.imp (fun hs => by rw [hs, Bool.or_true]) And.right

end DrawRun

/-! ## Sessions -/

/-- A page with all that its draw list depends on. -/
structure PageContent where
  resources : Resources
  transform : Affine
  content : Bytes

namespace PageContent

/-- The draw list of the page in a session, and the session afterwards. -/
def draw (config : ImageConfig) (session : DrawSession) (p : PageContent) :
    List DrawCommand × DrawSession :=
  session.draw config p.resources p.transform p.content

/-- The steps of the page. -/
def steps (p : PageContent) : List DrawStep := DrawStep.ofPage p.resources p.content

/-- The external images that are drawn on the page. -/
def images (p : PageContent) : List Stream := p.steps.flatMap DrawStep.images

theorem draw_eq (config : ImageConfig) (session : DrawSession) (p : PageContent) :
    p.draw config session =
      let m := ((DrawRun.start session p.transform).steps config.blackRatio p.steps).machine
      (m.commands.toList, ⟨m.gallery, m.current, m.start⟩) :=
  DrawRun.draw_eq session config p.resources p.transform p.content

end PageContent

/-- The session after some pages. -/
def DrawSession.after (config : ImageConfig) (pages : List PageContent) : DrawSession :=
  pages.foldl (fun session p => (p.draw config session).2) {}

theorem DrawSession.knows_after (config : ImageConfig) (pages : List PageContent) :
    (DrawSession.after config pages).gallery.Knows (pages.flatMap PageContent.images) := by
  have hpages (session : DrawSession) (met : List Stream) (h : session.gallery.Knows met) :
      (pages.foldl (fun session p => (p.draw config session).2) session).gallery.Knows
        (met ++ pages.flatMap PageContent.images) := by
    induction pages generalizing session met with
    | nil => simpa using h
    | cons p pages ih =>
      rw [List.flatMap_cons, ← List.append_assoc]
      refine ih _ _ ?_
      simp only [p.draw_eq]
      exact DrawRun.knows_steps h p.steps
  exact hpages {} [] Gallery.knows_empty

/-- After other pages a page is drawn as it is alone, up to the numbers of its images, if each of these that has
the reference of one drawn before is that image, and if its paths begin before they go on or the pages before
left the points at the origin. -/
theorem draw_after (config : ImageConfig) (pages : List PageContent) (page : PageContent)
    (himages : ∀ p ∈ pages, ∀ e ∈ p.images, ∀ t ∈ page.images, ∀ target,
      e.reference = some target → t.reference = some target → e = t)
    (hpath : DrawStep.beginPaths page.steps = true ∨
      (DrawSession.after config pages).current = .origin ∧
        (DrawSession.after config pages).start = .origin) :
    (page.draw config (.after config pages)).1.map (DrawCommand.renumber fun _ => 0) =
      (page.draw config {}).1.map (DrawCommand.renumber fun _ => 0) := by
  let session := DrawSession.after config pages
  have hstart : ∃ points, (DrawRun.start session page.transform).Alike points
        (DrawRun.start {} page.transform) ∧
      (points = true ∨ DrawStep.beginPaths page.steps = true) := by
    rcases hpath with hpath | ⟨hcurrent, hstart⟩
    · exact ⟨false, ⟨rfl, rfl⟩, .inr hpath⟩
    · refine ⟨true, ⟨?_, rfl⟩, .inl rfl⟩
      simp [Machine.hide, Machine.mask, DrawRun.start, session, hcurrent, hstart]
  obtain ⟨points, halike, hpoints⟩ := hstart
  have hknows : (DrawRun.start session page.transform).machine.gallery.Knows
      (pages.flatMap PageContent.images ++ []) := by
    rw [List.append_nil]
    exact DrawSession.knows_after config pages
  have hsame : ∀ e ∈ pages.flatMap PageContent.images, ∀ t ∈ [] ++ page.images, ∀ target,
      e.reference = some target → t.reference = some target → e = t := fun e he => by
    obtain ⟨p, hp, he⟩ := List.mem_flatMap.mp he
    exact himages p hp e he
  obtain ⟨points, halike⟩ : ∃ points, DrawRun.Alike points
      ((DrawRun.start session page.transform).steps config.blackRatio page.steps)
      ((DrawRun.start {} page.transform).steps config.blackRatio page.steps) :=
    halike.steps hknows Gallery.knows_empty hsame hpoints
  have hcommands := congrArg (fun m => m.commands.toList) halike.machine
  simpa [page.draw_eq, Machine.hide, Machine.mask] using hcommands

/-- An image that is stored in an object with others. -/
def nestedImage (width : Int64) (data : String) : Stream where
  dict := .ofList [("Length", .ofInt 1), ("Subtype", .name "Image"), ("Width", .ofInt width)]
  data := .ofAscii data
  reference := some ⟨1, 0⟩

/-- Resources in an object that holds two images, `A` and `B`. -/
def nestedImages : Resources :=
  let images : Dict := .ofList [("A", .stream (nestedImage 1 "x")), ("B", .stream (nestedImage 2 "y"))]
  .ofDict { objects := [(⟨1, 0⟩, .dict images)] } (.ofList [("XObject", .ref ⟨1, 0⟩)])

/-- A page with these images. -/
def nestedImagesPage (content : String) : PageContent := ⟨nestedImages, .identity, .ofAscii content⟩

theorem draw_after_nestedImage :
    ((nestedImagesPage "/A Do 1 1 m 2 2 l S").draw {}
        (.after {} [nestedImagesPage "/A Do 3 4 m n"])).1.map (DrawCommand.renumber fun _ => 0) =
      ((nestedImagesPage "/A Do 1 1 m 2 2 l S").draw {} {}).1.map (DrawCommand.renumber fun _ => 0) := by
  refine draw_after {} _ _ (fun p hp e he t ht _ _ _ => ?_) (.inl rfl)
  obtain rfl := List.mem_singleton.mp hp
  have he : e ∈ [nestedImage 1 "x"] := he
  have ht : t ∈ [nestedImage 1 "x"] := ht
  exact (List.mem_singleton.mp he).trans (List.mem_singleton.mp ht).symm

/-- Another image of the same object is taken for the one drawn before. -/
theorem not_forall_draw_after :
    ¬ ∀ (config : ImageConfig) (pages : List PageContent) (page : PageContent),
      (∀ p ∈ pages, p.resources.store = page.resources.store) →
      (page.draw config (.after config pages)).1.map (DrawCommand.renumber fun _ => 0) =
        (page.draw config {}).1.map (DrawCommand.renumber fun _ => 0) := by
  intro h
  have hdrawn := h {} [nestedImagesPage "/A Do"] (nestedImagesPage "/B Do") (by simp [nestedImagesPage])
  have hlists : [.state (.transform .identity), .image 0 (nestedImage 1 "x") nestedImages .black] =
      [.state (.transform .identity), DrawCommand.image 0 (nestedImage 2 "y") nestedImages .black] := hdrawn
  have hstreams : nestedImage 1 "x" = nestedImage 2 "y" := by
    injection hlists with _ hlists
    injection hlists with hlists
    injection hlists
  have hdata := congrArg Stream.data hstreams
  revert hdata
  decide

/-- Content that goes on with a path that it has not begun. -/
def danglingLine : Bytes := .ofAscii "0 0 l S"

/-- Such a path begins where the last one was, so it tells whether that is the origin. -/
theorem current_eq_origin_of_draw_eq {session : DrawSession} {config : ImageConfig} {r : Resources}
    {transform : Affine}
    (h : (session.draw config r transform danglingLine).1 =
      (DrawSession.draw {} config r transform danglingLine).1) :
    session.current = .origin := by
  obtain ⟨p, hpage⟩ : ∃ p, DrawStep.ofPage r danglingLine =
      [.perform r (.line p) rfl, .perform r (.paint false none true) rfl, .endPage] := ⟨_, rfl⟩
  have hdrawn (session : DrawSession) : (session.draw config r transform danglingLine).1 =
      [.state (.transform transform), .stroke #[.move session.current, .line p]] := by
    rw [DrawRun.steps_ofPage, hpage]
    rfl
  rw [hdrawn, hdrawn] at h
  simpa using h

end Folio
