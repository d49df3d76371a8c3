import Mathlib
import Folio.Image.Object

/-!
# What is kept of an image

An image is decoded with the color space that it has in the resources with which it is first drawn, and what it
was decoded to is drawn again until it is discarded. Main statement: `drawn_eq_of_agree`, it is drawn as if it
had never been used, as long as its resources do not differ in what it depends on. Where they give it another
color space, what is kept is drawn nevertheless (`not_forall_drawn_eq`).

`ImageObject.Remembers` says where all that is kept comes from.
-/

namespace Folio

/-! ## What an image depends on -/

/-- The color space of an image in the resources around it. -/
def Stream.imageSpace (s : Stream) (r : Resources) : ColorSpace :=
  ((s.dict.get? "ColorSpace").bind r.colorSpace?).getD .gray

/-- The color space of the soft mask of an image, if it has one. -/
def Stream.softMaskSpace? (s : Stream) (r : Resources) : Option ColorSpace :=
  (r.store.entry? Object.stream? s.dict "SMask").map fun mask => mask.imageSpace r

variable {s : Stream} {config : ImageConfig} {r other : Resources}

theorem BaseImage.ofStream?_congr {space : Option ColorSpace} {forceStencil : Bool}
    (hstore : other.store = r.store)
    (hspace : space.isSome ∨ forceStencil = true ∨ s.imageSpace other = s.imageSpace r) :
    ofStream? s space forceStencil other config = ofStream? s space forceStencil r config := by
  have hchosen (stated : Bool) :
      (if (forceStencil || stated) = true then ColorSpace.gray
        else (space.or ((s.dict.get? "ColorSpace").bind other.colorSpace?)).getD .gray) =
      if (forceStencil || stated) = true then ColorSpace.gray
        else (space.or ((s.dict.get? "ColorSpace").bind r.colorSpace?)).getD .gray := by
    rcases hspace with hspace | rfl | hspace
    · obtain ⟨given, rfl⟩ := Option.isSome_iff_exists.mp hspace
      simp only [Option.some_or]
    · simp only [Bool.true_or, if_true]
    · cases space with
      | some given => simp only [Option.some_or]
      | none =>
        unfold Stream.imageSpace at hspace
        simp only [Option.none_or, hspace]
  unfold ofStream?
  simp only [hstore, hchosen]

theorem MaskedImage.ofStream?_congr {space : ColorSpace} (hstore : other.store = r.store)
    (hmask : s.softMaskSpace? other = s.softMaskSpace? r) :
    ofStream? s (some space) other config = ofStream? s (some space) r config := by
  have hbase : BaseImage.ofStream? s (some space) false other config =
      BaseImage.ofStream? s (some space) false r config :=
    BaseImage.ofStream?_congr hstore (.inl rfl)
  have hsoft : (r.store.entry? Object.stream? s.dict "SMask").bind (fun mask =>
        BaseImage.ofStream? mask none false other config) =
      (r.store.entry? Object.stream? s.dict "SMask").bind fun mask =>
        BaseImage.ofStream? mask none false r config := by
    refine Option.bind_congr fun mask hmem => ?_
    refine BaseImage.ofStream?_congr hstore (.inr (.inr ?_))
    simpa [Stream.softMaskSpace?, hstore, hmem] using hmask
  have hexplicit (i : BaseImage) : explicitMask? i other config = explicitMask? i r config := by
    have hstencil (mask : Stream) : BaseImage.ofStream? mask none true other config =
        BaseImage.ofStream? mask none true r config :=
      BaseImage.ofStream?_congr hstore (.inr (.inl rfl))
    simp only [explicitMask?, hstore, hstencil]
  simp only [ofStream?, hbase, hstore, hsoft, hexplicit]

/-- A decoded image is the same in another color, unless it is a stencil painted in its own. -/
theorem MaskedImage.decode?_of_stencilFill {i : MaskedImage} {painted fill : Rgb} {store : Store}
    {raster : Raster} (h : i.decode? painted store config = some raster)
    (hfill : raster.stencilFill.all (· == fill) = true) : i.decode? fill store config = some raster := by
  unfold decode? at h ⊢
  cases hsamples : i.base.samples? store config with
  | none => simp [hsamples] at h
  | some samples =>
    simp only [hsamples, Option.bind_eq_bind, Option.bind_some] at h ⊢
    split at h
    · rename_i hstencil
      obtain rfl := Option.some.inj h
      obtain rfl : painted = fill := by simpa using hfill
      rw [if_pos hstencil]
    · rename_i hstencil
      rw [if_neg hstencil]
      exact h

/-! ## Uses of an image -/

/-- A use of an image: it is drawn, or what is kept of it is discarded. -/
inductive ImageUse where
  | draw (fill : Rgb) (resources : Resources)
  | discard

namespace ImageUse

/-- The resources with which an image is drawn. -/
def resources? : ImageUse → Option Resources
  | .draw _ r => some r
  | .discard => none

/-- The resources with which an image is first drawn. -/
def first? (uses : List ImageUse) : Option Resources := uses.findSome? resources?

/-- The resources of the uses of an image since it was last discarded. -/
def recent (uses : List ImageUse) : List Resources :=
  uses.foldl (fun recent use => use.resources?.elim [] (· :: recent)) []

variable {uses : List ImageUse}

theorem first?_concat (uses : List ImageUse) (use : ImageUse) :
    first? (uses ++ [use]) = (first? uses).or use.resources? := by
  rw [first?, List.findSome?_append, ← first?]
  cases use <;> rfl

theorem recent_concat (uses : List ImageUse) (use : ImageUse) :
    recent (uses ++ [use]) = use.resources?.elim [] (· :: recent uses) := by
  rw [recent, List.foldl_append, ← recent]
  rfl

end ImageUse

namespace ImageObject

/-- The image after a use. -/
def use (config : ImageConfig) (i : ImageObject) : ImageUse → ImageObject
  | .draw fill r => (i.draw fill r config).2
  | .discard => i.discard

/-- An image after some uses. -/
def after (config : ImageConfig) (s : Stream) (uses : List ImageUse) : ImageObject :=
  uses.foldl (use config) { stream := s }

/-- What is drawn for an image after some uses. -/
def drawn (config : ImageConfig) (s : Stream) (uses : List ImageUse) (fill : Rgb) (r : Resources) :
    Option Raster :=
  ((after config s uses).draw fill r config).1

/-- What an image in some color space is decoded to. -/
def decodeIn? (config : ImageConfig) (s : Stream) (space : ColorSpace) (fill : Rgb) (r : Resources) :
    Option Raster :=
  (MaskedImage.ofStream? s (some space) r config).bind fun i => i.decode? fill r.store config

variable {i : ImageObject} {uses : List ImageUse} {fill : Rgb} {raster : Raster}

theorem mem_kept_of_reusable (h : i.reusable? fill = some raster) :
    raster ∈ i.kept ∧ raster.stencilFill.all (· == fill) = true :=
  Option.filter_eq_some_iff.mp h

theorem draw_of_reusable (h : i.reusable? fill = some raster) : i.draw fill r config = (some raster, i) := by
  rw [draw, h]

theorem draw_of_not_reusable (h : i.reusable? fill = none) :
    i.draw fill r config = (decodeIn? config i.stream (i.space r) fill r,
      { i.withSpace r with kept := (decodeIn? config i.stream (i.space r) fill r).or i.kept }) := by
  rw [draw, h, decodeIn?, ← masked?]
  cases (i.masked? r config).bind fun m => m.decode? fill r.store config <;> rfl

/-- Whether an image keeps its first color space, and only what one of the recent uses has decoded in it. -/
structure Remembers (config : ImageConfig) (s : Stream) (uses : List ImageUse) (i : ImageObject) : Prop where
  stream_eq : i.stream = s
  knownSpace_eq : i.knownSpace = (ImageUse.first? uses).map s.imageSpace
  kept : ∀ raster ∈ i.kept, ∃ first ∈ ImageUse.first? uses, ∃ recent ∈ ImageUse.recent uses, ∃ fill,
    decodeIn? config s (s.imageSpace first) fill recent = some raster

theorem Remembers.space_eq (h : Remembers config s uses i) (r : Resources) :
    i.space r = s.imageSpace ((ImageUse.first? uses).getD r) := by
  rw [space, h.knownSpace_eq, h.stream_eq]
  cases ImageUse.first? uses <;> rfl

theorem Remembers.discard (h : Remembers config s uses i) :
    Remembers config s (uses ++ [.discard]) i.discard := by
  refine ⟨h.stream_eq, ?_, fun raster hkept => by cases hkept⟩
  rw [ImageUse.first?_concat, ImageUse.resources?, Option.or_none]
  exact h.knownSpace_eq

theorem Remembers.draw (h : Remembers config s uses i) (fill : Rgb) (r : Resources) :
    Remembers config s (uses ++ [.draw fill r]) (i.draw fill r config).2 := by
  have hfirst := ImageUse.first?_concat uses (.draw fill r)
  have hrecent : ImageUse.recent (uses ++ [.draw fill r]) = r :: ImageUse.recent uses :=
    ImageUse.recent_concat uses _
  rw [ImageUse.resources?] at hfirst
  -- What was kept before was decoded in the same color space, by a use that is still recent.
  have hbefore : ∀ raster ∈ i.kept, ∃ first ∈ ImageUse.first? (uses ++ [.draw fill r]),
      ∃ recent ∈ ImageUse.recent (uses ++ [.draw fill r]), ∃ fill,
        decodeIn? config s (s.imageSpace first) fill recent = some raster := by
    intro raster hkept
    obtain ⟨first, hmem, recent, hmemRecent, hdecode⟩ := h.kept raster hkept
    refine ⟨first, ?_, recent, hrecent ▸ List.mem_cons_of_mem r hmemRecent, hdecode⟩
    rw [hfirst, Option.mem_def.mp hmem]
    rfl
  cases hreusable : i.reusable? fill with
  | some raster =>
    rw [draw_of_reusable hreusable]
    refine ⟨h.stream_eq, ?_, hbefore⟩
    obtain ⟨first, hmem, -⟩ := h.kept raster (mem_kept_of_reusable hreusable).1
    rw [h.knownSpace_eq, hfirst, Option.mem_def.mp hmem]
    rfl
  | none =>
    rw [draw_of_not_reusable hreusable, h.stream_eq, h.space_eq]
    refine ⟨h.stream_eq, ?_, fun raster hkept => ?_⟩
    · rw [withSpace, h.space_eq, hfirst]
      cases ImageUse.first? uses <;> rfl
    · rcases Option.or_eq_some_iff.mp hkept with hnew | ⟨-, hold⟩
      · refine ⟨(ImageUse.first? uses).getD r, ?_, r, hrecent ▸ List.mem_cons_self, fill, hnew⟩
        rw [hfirst]
        cases ImageUse.first? uses <;> rfl
      · exact hbefore raster hold

theorem remembers_after (config : ImageConfig) (s : Stream) (uses : List ImageUse) :
    Remembers config s uses (after config s uses) := by
  induction uses using List.reverseRecOn with
  | nil => exact ⟨rfl, rfl, fun raster hkept => by cases hkept⟩
  | append_singleton uses use ih =>
    rw [after, List.foldl_append, ← after]
    cases use with
    | draw fill r => exact ih.draw fill r
    | discard => exact ih.discard

theorem drawn_nil (config : ImageConfig) (s : Stream) (fill : Rgb) (r : Resources) :
    drawn config s [] fill r = decodeIn? config s (s.imageSpace r) fill r :=
  congrArg Prod.fst (draw_of_not_reusable (i := { stream := s }) rfl)

/-- After any uses an image is drawn as if it had not been used, if the resources with which it was first drawn
give it the same color space, and those with which it has been drawn since it was last discarded have the same
objects and give its soft mask the same color space. -/
theorem drawn_eq_of_agree (config : ImageConfig) (s : Stream) (uses : List ImageUse) (fill : Rgb)
    (r : Resources)
    (hfirst : ∀ first ∈ ImageUse.first? uses, s.imageSpace first = s.imageSpace r)
    (hrecent : ∀ recent ∈ ImageUse.recent uses,
      recent.store = r.store ∧ s.softMaskSpace? recent = s.softMaskSpace? r) :
    drawn config s uses fill r = drawn config s [] fill r := by
  have hremembers := remembers_after config s uses
  have hspace : (after config s uses).space r = s.imageSpace r := by
    rw [hremembers.space_eq]
    cases hdrawn : ImageUse.first? uses with
    | none => rfl
    | some first => exact hfirst first hdrawn
  rw [drawn_nil, drawn]
  cases hreusable : (after config s uses).reusable? fill with
  | none => rw [draw_of_not_reusable hreusable, hremembers.stream_eq, hspace]
  | some raster =>
    obtain ⟨first, hmem, recent, hmemRecent, painted, hdecode⟩ :=
      hremembers.kept raster (mem_kept_of_reusable hreusable).1
    obtain ⟨hstore, hmask⟩ := hrecent recent hmemRecent
    rw [draw_of_reusable hreusable, decodeIn?, ← MaskedImage.ofStream?_congr hstore hmask]
    rw [decodeIn?, hfirst first hmem, hstore] at hdecode
    obtain ⟨i, hi, hraster⟩ := Option.bind_eq_some_iff.mp hdecode
    rw [hi, Option.bind_some]
    exact (i.decode?_of_stencilFill hraster (mem_kept_of_reusable hreusable).2).symm

/-- Resources in which a color space has the name `C`. -/
def namedSpace (space : Name) : Dict := .ofList [("ColorSpace", .dict (.ofList [("C", .name space)]))]

/-- A gray soft mask of one pixel. -/
def graySoftMask : Stream where
  dict := .ofList [("ColorSpace", .name "DeviceGray"), ("Height", .ofInt 1), ("Length", .ofInt 1),
    ("Width", .ofInt 1)]
  data := .ofAscii "@"
  reference := some ⟨2, 0⟩

/-- An image of one pixel in the color space `C`. -/
def imageInNamedSpace : Stream where
  dict := .ofList [("BitsPerComponent", .ofInt 8), ("ColorSpace", .name "C"), ("Height", .ofInt 1),
    ("Length", .ofInt 3), ("SMask", .ref ⟨2, 0⟩), ("Subtype", .name "Image"), ("Width", .ofInt 1)]
  data := .ofAscii "abc"
  reference := some ⟨1, 0⟩

/-- The resources of a page in which `C` is a space of three colors. -/
def colorPage : Resources :=
  .ofDict { objects := [(⟨1, 0⟩, .stream imageInNamedSpace), (⟨2, 0⟩, .stream graySoftMask)] }
    (namedSpace "DeviceRGB")

/-- In a form without color spaces the image is drawn again as on the page. -/
theorem drawn_eq_of_agree_form :
    drawn {} imageInNamedSpace [.draw .black colorPage, .discard, .draw .white colorPage] .black
        (colorPage.nest (.ofList [])) =
      drawn {} imageInNamedSpace [] .black (colorPage.nest (.ofList [])) := by
  refine drawn_eq_of_agree {} _ _ _ _ (fun first hmem => ?_) fun recent hmem => ?_
  · obtain rfl : colorPage = first := Option.some.inj hmem
    rfl
  · obtain rfl : recent = colorPage := List.mem_singleton.mp hmem
    exact ⟨rfl, rfl⟩

/-- In a form where `C` is gray, the image is drawn in the colors of the page. -/
theorem not_forall_drawn_eq :
    ¬ ∀ (config : ImageConfig) (s : Stream) (uses : List ImageUse) (fill : Rgb) (r : Resources),
      drawn config s uses fill r = drawn config s [] fill r := by
  intro h
  have hdrawn := congrArg (Option.map Raster.bytes)
    (h {} imageInNamedSpace [.draw .black colorPage] .black (colorPage.nest (namedSpace "DeviceGray")))
  have hkept : (drawn {} imageInNamedSpace [.draw .black colorPage] .black
      (colorPage.nest (namedSpace "DeviceGray"))).map Raster.bytes = some [97, 98, 99, 64] := by
    decide +kernel
  have hfresh : (drawn {} imageInNamedSpace [] .black
      (colorPage.nest (namedSpace "DeviceGray"))).map Raster.bytes = some [97, 97, 97, 64] := by
    decide +kernel
  rw [hkept, hfresh] at hdrawn
  revert hdrawn
  decide

end ImageObject

end Folio
