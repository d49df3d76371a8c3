import Folio.Fax.Decode
import Folio.Proofs.Bits
import Folio.Proofs.Fax.Changes

/-!
# The pixels of fax images

Main statement: the image made of the changes of some rows shows the pixels of the rows.
-/

namespace Folio.Fax

/-- Whether an image shows rows of pixels, true for black, and nothing else. -/
structure Image.Shows (image : Image) (rows : List (List Bool)) : Prop where
  rows_eq : image.rows = rows.length
  columns_eq : ∀ row ∈ rows, row.length = image.columns
  length_data : image.data.length = image.rows * image.stride
  isBlack_eq : ∀ x y, x < image.columns → y < image.rows →
    image.isBlack x y = (rows.getD y []).getD x false

theorem length_flatMap_of_eq {α β : Type} {f : α → List β} {l : List α} {count : Nat}
    (h : ∀ a ∈ l, (f a).length = count) : (l.flatMap f).length = l.length * count := by
  induction l with
  | nil => exact (Nat.zero_mul count).symm
  | cons b l ih =>
    obtain ⟨hfirst, hrest⟩ := List.forall_mem_cons.mp h
    rw [List.flatMap_cons, List.length_append, ih hrest, hfirst, List.length_cons, Nat.succ_mul,
      Nat.add_comm]

/-- The element at some place of parts of one length. -/
theorem getD_flatMap_of_eq {α β : Type} {f : α → List β} {l : List α} {count x y : Nat} (a : α)
    (d : β) (h : ∀ a ∈ l, (f a).length = count) (hx : x < count) (hy : y < l.length) :
    (l.flatMap f).getD (y * count + x) d = (f (l.getD y a)).getD x d := by
  induction l generalizing y with
  | nil => exact absurd hy (Nat.not_lt_zero _)
  | cons b l ih =>
    obtain ⟨hfirst, hrest⟩ := List.forall_mem_cons.mp h
    rw [List.flatMap_cons]
    cases y with
    | zero =>
      rw [Nat.zero_mul, Nat.zero_add, List.getD_append _ _ _ _ (hfirst ▸ hx)]
      rfl
    | succ y =>
      have hindex : (y + 1) * count + x - count = y * count + x := by
        rw [Nat.succ_mul]
        omega
      have hle : count ≤ (y + 1) * count + x := by
        rw [Nat.succ_mul]
        omega
      rw [List.getD_append_right _ _ _ _ (hfirst.symm ▸ hle), hfirst, hindex,
        ih hrest (Nat.lt_of_succ_lt_succ hy), List.getD_cons_succ]

/-- A pixel is a bit of the data, where rows begin at whole bytes. -/
theorem Image.isBlack_eq_getD (image : Image) (x y : Nat) :
    image.isBlack x y = (Bits.ofBytes image.data).getD (y * (image.stride * 8) + x) false := by
  have hindex : y * (image.stride * 8) + x = (y * image.stride + x / 8) * 8 + x % 8 := by
    rw [Nat.add_mul, Nat.mul_assoc]
    omega
  rw [hindex, Bits.getD_ofBytes _ _ (Nat.mod_lt x (by decide))]
  rfl

theorem ofBytes_flatMap (rows : List (List Bool)) :
    Bits.ofBytes (rows.flatMap Bits.pack) =
      rows.flatMap fun row => row ++ Bits.fill row.length := by
  rw [Bits.ofBytes, List.flatMap_assoc]
  congr 1
  funext row
  exact Bits.ofBytes_pack row

variable {p : Params} {stored : List (List Nat)} {rows : List (List Bool)} {columns : Nat}

theorem map_pixels (h : List.Forall₂ Stores stored rows)
    (hlen : ∀ row ∈ rows, row.length = p.columns) : stored.map (pixels p.columns) = rows := by
  induction h with
  | nil => rfl
  | cons hfirst _ ih =>
    obtain ⟨hlen, hrest⟩ := List.forall_mem_cons.mp hlen
    rw [List.map_cons, hfirst.pixels hlen, ih hrest]

/-- The bits of packed rows are their pixels, and those after the end of a row are not set. -/
theorem Image.isBlack_pack (hlen : ∀ row ∈ rows, row.length = columns) {x y : Nat}
    (hx : x < 8 * ((columns + 7) / 8)) (hy : y < rows.length) :
    (Image.mk columns rows.length (rows.flatMap Bits.pack)).isBlack x y =
      (rows.getD y []).getD x false := by
  have hfill : ∀ row ∈ rows, (row ++ Bits.fill row.length).length = (columns + 7) / 8 * 8 := by
    intro row hrow
    rw [List.length_append, Bits.fill, List.length_replicate, hlen row hrow]
    omega
  have hstride : (Image.mk columns rows.length (rows.flatMap Bits.pack)).stride = (columns + 7) / 8 := rfl
  rw [Image.isBlack_eq_getD, ofBytes_flatMap, hstride,
    getD_flatMap_of_eq [] false hfill (by omega) hy]
  by_cases hrow : x < (rows.getD y []).length
  · rw [List.getD_append _ _ _ _ hrow]
  · have hwhite (count i : Nat) : (List.replicate count false).getD i false = false := by
      rw [List.getD_eq_getElem?_getD, List.getElem?_replicate]
      split <;> rfl
    rw [List.getD_append_right _ _ _ _ (Nat.le_of_not_lt hrow),
      List.getD_eq_default _ _ (Nat.le_of_not_lt hrow), Bits.fill, hwhite]

/-- Packed rows of one length are an image that shows them. -/
theorem Image.shows_pack (hlen : ∀ row ∈ rows, row.length = columns) :
    (Image.mk columns rows.length (rows.flatMap Bits.pack)).Shows rows := by
  have hpack : ∀ row ∈ rows, (Bits.pack row).length = (columns + 7) / 8 :=
    fun row hrow => by rw [Bits.length_pack, hlen row hrow]
  refine ⟨rfl, hlen, length_flatMap_of_eq hpack, fun x y hx hy => ?_⟩
  have hx : x < columns := hx
  exact Image.isBlack_pack hlen (by omega) hy

/-- The rows that an image shows whose changes are given, with white ones up to the stated number. -/
def shownRows (p : Params) (stored : List (List Nat)) : List (List Bool) :=
  stored.map (pixels p.columns) ++
    List.replicate (p.rows - stored.length) (List.replicate p.columns false)

theorem imageOf_eq (p : Params) (stored : List (List Nat)) :
    imageOf p stored =
      ⟨p.columns, (shownRows p stored).length, (shownRows p stored).flatMap Bits.pack⟩ := by
  have hcount : max p.rows stored.length = stored.length + (p.rows - stored.length) := by omega
  have hwhite : Bits.pack (List.replicate p.columns false) =
      List.replicate ((p.columns + 7) / 8) 0 := by
    rw [Bits.pack_zeros fun b hb => (List.mem_replicate.mp hb).2, List.length_replicate]
  simp only [imageOf, shownRows, hcount, List.length_append, List.length_map, List.length_replicate,
    List.flatMap_append, List.flatMap_map, Nat.add_sub_cancel_left, List.flatMap_replicate, hwhite,
    List.flatten_replicate_replicate]

/-- The image of the changes of some rows shows the rows. -/
theorem shows_imageOf (hcount : p.rows ≤ rows.length) (h : List.Forall₂ Stores stored rows)
    (hlen : ∀ row ∈ rows, row.length = p.columns) : (imageOf p stored).Shows rows := by
  have hshown : shownRows p stored = rows := by
    rw [shownRows, h.length_eq, Nat.sub_eq_zero_of_le hcount, map_pixels h hlen]
    exact List.append_nil rows
  rw [imageOf_eq, hshown]
  exact Image.shows_pack hlen

end Folio.Fax
