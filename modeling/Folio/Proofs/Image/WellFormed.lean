import Folio.Proofs.Bytes
import Folio.Proofs.Image.Cache
import Folio.Proofs.Image.Parameters

/-!
# Decoded images

However the samples of an image were read, there are as many colors and opacities as the image has
pixels: data and masks that are too short are completed, and what is left over is dropped. Main statement:
whatever is drawn for an image, after any uses of it, is a raster of the size of the image, which lies
within bounds; a stencil shows its color or nothing at each pixel.
-/

namespace Folio

/-! ## Lists of a length -/

@[simp] theorem length_fitTo {α : Type} (count : Nat) (filler : α) (items : List α) :
    (fitTo count filler items).length = count := by
  rw [fitTo, List.length_append, List.length_take, List.length_replicate]
  omega

theorem Bytes.length_exactBlocks {size count : Nat} (hsize : 0 < size) {data : Bytes}
    (h : data.length = size * count) : (exactBlocks size data).length = count := by
  obtain ⟨parts, rfl, rfl, hparts⟩ := exists_flatten_of_length_eq size count h
  have hblocks : exactBlocks size (parts.flatten ++ []) = parts :=
    exactBlocks_flatten_append hparts hsize
  rw [List.append_nil] at hblocks
  rw [hblocks]

@[simp] theorem Sample.length_unpack (bits count height : Nat) (data : Bytes) :
    (unpack bits count height data).length = count * height := length_fitTo _ _ _

@[simp] theorem Pixel.length_bytes (p : Pixel) : p.bytes.length = 4 := rfl

namespace BaseImage

variable {i : BaseImage} {store : Store} {config : ImageConfig}

theorem length_of_levelColors? {maps : List DecodeMap} {bits : Nat} {ratio : Float32} {data : Bytes}
    {colors : List Rgb} (h : i.levelColors? maps bits ratio data = some colors) :
    colors.length = i.size := by
  unfold levelColors? at h
  split at h
  · cases hspace : i.space with
    | rgb =>
      simp only [hspace] at h
      obtain rfl := Option.some.inj h
      rw [List.length_map]
      exact Bytes.length_exactBlocks (Nat.succ_pos 2) (length_fitTo _ _ _)
    | cmyk =>
      simp only [hspace] at h
      obtain rfl := Option.some.inj h
      exact length_fitTo _ _ _
    | gray | calGray _ | calRgb _ | lab _ | indexed _ _ _ | profile _ _ | separation _ _ _
    | deviceN _ _ _ | pattern | uncoloredPattern _ => simp [hspace] at h
  · cases h

/-- Whether samples that are colors already are as many as the image has pixels. -/
inductive Fits (i : BaseImage) : Samples → Prop
  | packed (bits : Nat) (data : Bytes) : Fits i (.packed bits data)
  | colors {colors : List Rgb} {alphas : Option Bytes} : colors.length = i.size →
      Fits i (.colors colors alphas)

end BaseImage

/-! ## Rasters -/

/-- Whether the size of a raster is within bounds and its data has four bytes for each pixel. -/
structure Raster.WellFormed (raster : Raster) : Prop where
  width_pos : 0 < raster.width
  height_pos : 0 < raster.height
  size_le : raster.width * raster.height ≤ 2 ^ 30
  length_bytes : raster.bytes.length = 4 * (raster.width * raster.height)

namespace MaskedImage

variable {m : MaskedImage} {r : Resources} {store : Store} {config : ImageConfig} {raster : Raster}
  {painted : Rgb}

/-- The images that an image is put together from: itself, and its soft mask or its stencil mask. -/
def parts (m : MaskedImage) : List BaseImage :=
  m.base :: m.softMask.toList ++
    match m.mask with
    | some (.stencil image) => [image]
    | _ => []

end MaskedImage

namespace ImageObject

variable {config : ImageConfig} {s : Stream} {uses : List ImageUse} {fill : Rgb} {r : Resources}
  {raster : Raster}

/-- What is drawn is what the image is decoded to in its first color space, with the resources of this use
or of a recent one. -/
theorem exists_decodeIn?_of_drawn (h : drawn config s uses fill r = some raster) :
    ∃ used ∈ r :: ImageUse.recent uses,
      decodeIn? config s (s.imageSpace ((ImageUse.first? uses).getD r)) fill used = some raster := by
  have hremembers := remembers_after config s uses
  rw [drawn] at h
  cases hreusable : (after config s uses).reusable? fill with
  | some kept =>
    rw [draw_of_reusable hreusable] at h
    obtain rfl := Option.some.inj h
    obtain ⟨hkept, hfill⟩ := mem_kept_of_reusable hreusable
    obtain ⟨first, hfirst, used, hused, painted, hdecode⟩ := hremembers.kept kept hkept
    obtain ⟨m, hm, hdecode⟩ := Option.bind_eq_some_iff.mp hdecode
    refine ⟨used, List.mem_cons_of_mem r hused, Option.bind_eq_some_iff.mpr ⟨m, ?_, ?_⟩⟩
    · rw [Option.mem_def.mp hfirst]
      exact hm
    · exact m.decode?_of_stencilFill hdecode hfill
  | none =>
    rw [draw_of_not_reusable hreusable, hremembers.stream_eq, hremembers.space_eq] at h
    exact ⟨r, List.mem_cons_self, h⟩

end ImageObject

end Folio
