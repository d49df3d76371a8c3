import Folio.Proofs.Image.WellFormed

/-!
# What an image states itself

The size of an image, and whether it is a stencil, can be asked for without decoding it; references in its
dictionary are then not followed. Main statement: `ImageObject.dimensions_eq_iff_and_isStencil_eq_iff`. The answers
are those of every raster that is drawn if they are stated without references. A size that is stated by a reference
counts as missing, and is right only if it is the one that the other gives on the page.
-/

namespace Folio

namespace Stream

/-- The number of columns or rows that the dictionary of an image states itself, or zero. -/
def statedSize (s : Stream) (key : Name) : Nat := ((s.dict.getAs? Object.uint32? key).getD 0).toNat

/-- The number of columns or rows under a key, where references are followed. -/
def size (s : Stream) (store : Store) (key : Name) : Nat := ((store.entry? Object.uint32? s.dict key).getD 0).toNat

/-- Whether the image is a stencil, where references are followed. -/
def isStencil (s : Stream) (store : Store) : Bool := (store.entry? Object.bool? s.dict "ImageMask").getD false

end Stream

variable {s : Stream} {store : Store}

theorem Store.entry?_eq_getAs? {α : Type} {cast : Object → Option α} {d : Dict} {key : Name}
    (h : ∀ r, d.get? key ≠ some (.ref r)) : store.entry? cast d key = d.getAs? cast key := by
  rw [Store.entry?, Dict.getAs?]
  refine Option.bind_congr fun o ho => ?_
  cases o with
  | ref r => exact absurd ho (h r)
  | _ => rfl

theorem Dict.getAs?_eq_none_of_ref {α : Type} {cast : Object → Option α} {d : Dict} {key : Name} {r : Ref}
    (hcast : cast (.ref r) = none) (h : d.get? key = some (.ref r)) : d.getAs? cast key = none := by
  rw [Dict.getAs?, h]
  exact hcast

/-- A size is stated as it is, or it counts as missing. -/
theorem Stream.statedSize_eq_or (s : Stream) (store : Store) (key : Name) :
    s.statedSize key = s.size store key ∨ s.statedSize key = 0 := by
  by_cases h : ∃ r, s.dict.get? key = some (.ref r)
  · obtain ⟨r, hr⟩ := h
    refine .inr ?_
    rw [statedSize, Dict.getAs?_eq_none_of_ref rfl hr]
    rfl
  · refine .inl ?_
    rw [statedSize, size, Store.entry?_eq_getAs? fun r hr => h ⟨r, hr⟩]

/-! ## Sizes -/

namespace BaseImage

/-- The width of an image on a page of which only the height is known. -/
def widthFor (ratio : Float32) (height : Nat) : Nat := (ratio * height.toFloat32).round.toUInt32.toNat

/-- The height of an image on a page of which only the width is known. -/
def heightFor (ratio : Float32) (width : Nat) : Nat := (width.toFloat32 / ratio).round.toUInt32.toNat

/-- The dimensions of an image, where a missing one is computed from the other. -/
def filled (ratio : Float32) (width height : Nat) : Nat × Nat :=
  if width = 0 then (widthFor ratio height, height)
  else if height = 0 then (width, heightFor ratio width)
  else (width, height)

variable {ratio : Float32} {width height width' height' : Nat} {size : Nat × Nat}

theorem dimensions?_eq_some_iff :
    dimensions? width height ratio = some size ↔
      filled ratio width height = size ∧ size.1 ≠ 0 ∧ size.2 ≠ 0 ∧ size.1 * size.2 ≤ maxPixels := by
  have hfilled : dimensions? width height ratio =
      if (filled ratio width height).1 = 0 ∨ (filled ratio width height).2 = 0 ∨
          maxPixels < (filled ratio width height).1 * (filled ratio width height).2 then none
      else some (filled ratio width height) := rfl
  rw [hfilled]
  split
  · rename_i hbad
    refine iff_of_false (by rintro ⟨⟩) ?_
    rintro ⟨rfl, hwidth, hheight, hsize⟩
    rcases hbad with hbad | hbad | hbad
    · exact hwidth hbad
    · exact hheight hbad
    · exact absurd hbad (Nat.not_lt.mpr hsize)
  · rename_i hgood
    push Not at hgood
    rw [Option.some_inj]
    exact ⟨fun heq => ⟨heq, heq ▸ hgood⟩, And.left⟩

/-- Zeros stand in for dimensions that are out of bounds, and are so themselves. -/
theorem dimensions?_getD_eq_iff (h : dimensions? width height ratio = some size) :
    (dimensions? width' height' ratio).getD (0, 0) = size ↔ filled ratio width' height' = size := by
  obtain ⟨-, hbounds⟩ := dimensions?_eq_some_iff.mp h
  constructor
  · intro hsize
    cases hfound : dimensions? width' height' ratio with
    | none =>
      rw [hfound] at hsize
      exact absurd (congrArg Prod.fst hsize).symm hbounds.1
    | some found =>
      rw [hfound] at hsize
      obtain rfl : found = size := hsize
      exact (dimensions?_eq_some_iff.mp hfound).1
  · intro hfilled
    rw [dimensions?_eq_some_iff.mpr ⟨hfilled, hbounds⟩]
    rfl

/-- Of dimensions of which some are taken for missing, the missing ones are right if the other one gives them. -/
theorem dimensions?_getD_eq_iff_of_missing (h : dimensions? width height ratio = some size)
    (hwidth : width' = width ∨ width' = 0) (hheight : height' = height ∨ height' = 0) :
    (dimensions? width' height' ratio).getD (0, 0) = size ↔
      (width' = width ∨ height' ≠ 0 ∧ widthFor ratio height = width) ∧
        (height' = height ∨ width' ≠ 0 ∧ heightFor ratio width = height) := by
  rw [dimensions?_getD_eq_iff h]
  obtain ⟨rfl, hbounds⟩ := dimensions?_eq_some_iff.mp h
  have hnot : width ≠ 0 ∨ height ≠ 0 := by
    by_contra! hzero
    exact hbounds.2.1 (by rw [filled, if_pos hzero.1]; exact hzero.2)
  rcases hwidth with rfl | rfl <;> rcases hheight with rfl | rfl
  · exact iff_of_true rfl ⟨.inl rfl, .inl rfl⟩
  · by_cases hw : width' = 0 <;> by_cases hh : height = 0 <;> simp_all [filled, eq_comm]
  · by_cases hw : width = 0 <;> by_cases hh : height' = 0 <;> simp_all [filled, eq_comm]
  · by_cases hw : width = 0 <;> by_cases hh : height = 0 <;> simp_all [filled, eq_comm]

theorem size_of_ofStream? {given : Option ColorSpace} {r : Resources} {config : ImageConfig} {i : BaseImage}
    (h : ofStream? s given false r config = some i) :
    dimensions? (s.size r.store "Width") (s.size r.store "Height") config.pageRatio = some (i.width, i.height) ∧
      i.isStencil = s.isStencil r.store := by
  obtain ⟨filters, -, h⟩ := Option.bind_eq_some_iff.mp h
  obtain ⟨-, -, h⟩ := Option.bind_eq_some_iff.mp h
  obtain ⟨size, hsize, h⟩ := Option.bind_eq_some_iff.mp h
  obtain rfl := Option.some.inj h
  exact ⟨hsize, rfl⟩

end BaseImage

theorem MaskedImage.size_of_decode? {m : MaskedImage} {fill : Rgb} {config : ImageConfig} {raster : Raster}
    (h : m.decode? fill store config = some raster) :
    raster.width = m.base.width ∧ raster.height = m.base.height ∧ raster.stencilFill.isSome = m.base.isStencil := by
  obtain ⟨samples, -, h⟩ := Option.bind_eq_some_iff.mp h
  split at h
  · rename_i hstencil
    obtain rfl := Option.some.inj h
    exact ⟨rfl, rfl, hstencil.symm⟩
  · rename_i hplain
    obtain rfl := Option.some.inj h
    exact ⟨rfl, rfl, (Bool.not_eq_true _ ▸ hplain).symm⟩

/-! ## Rasters -/

namespace ImageObject

variable {config : ImageConfig} {uses : List ImageUse} {fill : Rgb} {r : Resources} {raster : Raster}

/-- The size of a raster, and whether it is of a stencil, are those under the keys with the resources of this use or
of a recent one. -/
theorem exists_size_of_drawn (h : drawn config s uses fill r = some raster) :
    ∃ used ∈ r :: ImageUse.recent uses,
      BaseImage.dimensions? (s.size used.store "Width") (s.size used.store "Height") config.pageRatio =
          some (raster.width, raster.height) ∧
        raster.stencilFill.isSome = s.isStencil used.store := by
  obtain ⟨used, hused, hdecode⟩ := exists_decodeIn?_of_drawn h
  obtain ⟨m, hm, hdecode⟩ := Option.bind_eq_some_iff.mp hdecode
  obtain ⟨base, hbase, hm⟩ := Option.bind_eq_some_iff.mp hm
  obtain rfl := Option.some.inj hm
  obtain ⟨hsize, hstencil⟩ := BaseImage.size_of_ofStream? hbase
  obtain ⟨hwidth, hheight, hfill⟩ := MaskedImage.size_of_decode? hdecode
  exact ⟨used, hused, by rw [hwidth, hheight, hsize], hfill.trans hstencil⟩

/-- After any uses, the dimensions that an image states itself are those of what is drawn exactly if each of them is
stated without a reference, or the other is, and gives it on the page; likewise whether it is a stencil. -/
theorem dimensions_eq_iff_and_isStencil_eq_iff (h : drawn config s uses fill r = some raster) :
    (∃ used ∈ r :: ImageUse.recent uses,
      ((after config s uses).dimensions config = (raster.width, raster.height) ↔
        (s.statedSize "Width" = s.size used.store "Width" ∨ s.statedSize "Height" ≠ 0 ∧
            BaseImage.widthFor config.pageRatio (s.size used.store "Height") = s.size used.store "Width") ∧
          (s.statedSize "Height" = s.size used.store "Height" ∨ s.statedSize "Width" ≠ 0 ∧
            BaseImage.heightFor config.pageRatio (s.size used.store "Width") = s.size used.store "Height")) ∧
      ((after config s uses).isStencil = raster.stencilFill.isSome ↔
        (s.dict.getAs? Object.bool? "ImageMask").getD false = s.isStencil used.store)) ∧
    ((∀ key ∈ (["Width", "Height", "ImageMask"] : List Name), ∀ q, s.dict.get? key ≠ some (.ref q)) →
      (after config s uses).dimensions config = (raster.width, raster.height) ∧
        (after config s uses).isStencil = raster.stencilFill.isSome) := by
  obtain ⟨used, hused, hsize, hfill⟩ := exists_size_of_drawn h
  have hstream : (after config s uses).stream = s := (remembers_after config s uses).stream_eq
  have hdimensions : (after config s uses).dimensions config =
      (BaseImage.dimensions? (s.statedSize "Width") (s.statedSize "Height") config.pageRatio).getD (0, 0) := by
    rw [dimensions, hstream]
    rfl
  have hmask : (after config s uses).isStencil = (s.dict.getAs? Object.bool? "ImageMask").getD false := by
    rw [isStencil, hstream]
  refine ⟨⟨used, hused, ?_, ?_⟩, fun hdirect => ⟨?_, ?_⟩⟩
  · rw [hdimensions]
    exact BaseImage.dimensions?_getD_eq_iff_of_missing hsize (s.statedSize_eq_or used.store "Width")
      (s.statedSize_eq_or used.store "Height")
  · rw [hmask, hfill]
  · have hstated {key : Name} (hkey : key ∈ (["Width", "Height", "ImageMask"] : List Name)) :
        s.statedSize key = s.size used.store key := by
      rw [Stream.statedSize, Stream.size, Store.entry?_eq_getAs? (hdirect key hkey)]
    rw [hdimensions, hstated (by decide), hstated (by decide), hsize]
    rfl
  · rw [hmask, hfill, Stream.isStencil, Store.entry?_eq_getAs? (hdirect _ (by decide))]

/-- An image of one pixel whose dimensions stand under a reference. -/
def referringImage : Stream where
  dict := .ofList [("BitsPerComponent", .ofInt 8), ("Height", .ref ⟨2, 0⟩), ("Length", .ofInt 1),
    ("Width", .ref ⟨2, 0⟩)]
  data := .ofAscii "a"
  reference := some ⟨1, 0⟩

/-- The resources of a page with the dimension. -/
def dimensionPage : Resources := .ofDict { objects := [(⟨2, 0⟩, .ofInt 1)] } (.ofList [])

/-- An image whose soft mask and color space are references states its size itself. -/
theorem dimensions_eq_iff_and_isStencil_eq_iff_softMask :
    ∃ raster, drawn {} imageInNamedSpace [.draw .black colorPage] .white colorPage = some raster ∧
      (after {} imageInNamedSpace [.draw .black colorPage]).dimensions {} = (raster.width, raster.height) ∧
      (after {} imageInNamedSpace [.draw .black colorPage]).isStencil = raster.stencilFill.isSome := by
  have hsome : (drawn {} imageInNamedSpace [.draw .black colorPage] .white colorPage).isSome = true := by
    decide +kernel
  obtain ⟨raster, hraster⟩ := Option.isSome_iff_exists.mp hsome
  refine ⟨raster, hraster, (dimensions_eq_iff_and_isStencil_eq_iff hraster).2 fun key hkey q => ?_⟩
  have hdirect : ∀ key ∈ (["Width", "Height", "ImageMask"] : List Name),
      ∀ o ∈ imageInNamedSpace.dict.get? key, o.ref? = none := by
    decide
  exact fun hq => absurd (hdirect key hkey _ hq) (by rintro ⟨⟩)

/-- An image whose dimensions are references has no size until it is drawn. -/
theorem not_forall_dimensions_eq :
    ¬ ∀ (config : ImageConfig) (s : Stream) (uses : List ImageUse) (fill : Rgb) (r : Resources) (raster : Raster),
      drawn config s uses fill r = some raster →
        (after config s uses).dimensions config = (raster.width, raster.height) ∧
          (after config s uses).isStencil = raster.stencilFill.isSome := by
  intro hall
  have hdrawn : (drawn {} referringImage [] .black dimensionPage).map Raster.width = some 1 := by decide +kernel
  obtain ⟨raster, hraster, hwidth⟩ := Option.map_eq_some_iff.mp hdrawn
  have hnone : BaseImage.dimensions? 0 0 ({} : ImageConfig).pageRatio = none := if_pos (.inr (.inl rfl))
  have hzero : (after {} referringImage []).dimensions {} = (0, 0) := congrArg (Option.getD · (0, 0)) hnone
  have hsame := congrArg Prod.fst (hzero.symm.trans (hall {} referringImage [] .black dimensionPage raster hraster).1)
  exact absurd (hsame.trans hwidth) Nat.zero_ne_one

end ImageObject

end Folio
