import Folio.Image.Sample
import Folio.Proofs.Bilevel.Bitmap
import Folio.Proofs.Fax.Image
import Folio.Proofs.Image.WellFormed

/-!
# The layout of samples

Samples of one, two, four or eight bits are packed row after row, where each row begins at a whole byte.
`Sample.stored` says which bits of the data a sample consists of. Main statement: `Sample.getElem?_unpack`,
unpacking gives these samples, which are zero where the data has ended.
-/

namespace Folio

/-! ## Data that are made longer, inverted, or packed row by row -/

theorem getD_fitTo {α : Type} {count i : Nat} (h : i < count) (filler d : α) (items : List α) :
    (fitTo count filler items).getD i d = items.getD i filler := by
  rw [fitTo, List.getD_eq_getElem?_getD, List.getD_eq_getElem?_getD, List.getElem?_append, List.length_take]
  split
  · rename_i hlt
    rw [List.getElem?_take_of_lt h, List.getElem?_eq_getElem (by omega)]
    rfl
  · rename_i hge
    have hitems : items.length ≤ i := by omega
    rw [List.getElem?_replicate_of_lt (by omega), List.getElem?_eq_none hitems]
    rfl

theorem ofBytes_fitTo {byte : UInt8} {bit : Bool} (h : Bits.ofNat 8 byte.toNat = List.replicate 8 bit)
    (count : Nat) (bytes : Bytes) :
    Bits.ofBytes (fitTo count byte bytes) = fitTo (count * 8) bit (Bits.ofBytes bytes) := by
  have hfiller (more : Nat) : Bits.ofBytes (List.replicate more byte) = List.replicate (more * 8) bit := by
    rw [Bits.ofBytes, List.flatMap_replicate, h, List.flatten_replicate_replicate]
  rw [fitTo, fitTo, Bits.ofBytes_append, Bits.ofBytes_take, hfiller, Bits.length_ofBytes, Nat.sub_mul]

/-- After the end of data that zeros complete no bit is set. -/
theorem getD_ofBytes_fitTo_zeros {count place : Nat} (h : place < count * 8) (bytes : Bytes) :
    (Bits.ofBytes (fitTo count 0 bytes)).getD place false = (Bits.ofBytes bytes).getD place false := by
  have hzeros : Bits.ofNat 8 (0 : UInt8).toNat = List.replicate 8 false := by decide
  rw [ofBytes_fitTo hzeros, getD_fitTo h]

/-- After the end of data that ones complete all bits are set. -/
theorem getD_ofBytes_fitTo_ones {count place : Nat} (h : place < count * 8) (bytes : Bytes) :
    (Bits.ofBytes (fitTo count 0xFF bytes)).getD place false = (Bits.ofBytes bytes).getD place true := by
  have hones : Bits.ofNat 8 (0xFF : UInt8).toNat = List.replicate 8 true := by decide
  rw [ofBytes_fitTo hones, getD_fitTo h]

theorem getD_ofBytes_complement (bytes : Bytes) (place : Nat) :
    (Bits.ofBytes (bytes.map (~~~ ·))).getD place true = !(Bits.ofBytes bytes).getD place false := by
  rw [Bits.ofBytes_complement]
  exact List.getD_map (Bits.ofBytes bytes) false fun b => !b

/-- The bits of rows that are whole bytes. -/
theorem getD_ofBytes_flatMap_pack {f : Nat → List Bool} {stride x : Nat}
    (hlen : ∀ y, (f y).length = stride * 8) (hx : x < stride * 8) (count y : Nat) (d : Bool) :
    (Bits.ofBytes ((List.range count).flatMap fun y => Bits.pack (f y))).getD (y * (stride * 8) + x) d =
      if y < count then (f y).getD x d else d := by
  have hbits : Bits.ofBytes ((List.range count).flatMap fun y => Bits.pack (f y)) =
      (List.range count).flatMap f := by
    have hfill : Bits.fill (stride * 8) = [] := by
      rw [Bits.fill, Nat.mul_mod_left]
      rfl
    have hpack (y : Nat) : (Bits.pack (f y)).flatMap (fun b => Bits.ofNat 8 b.toNat) = f y := by
      refine (Bits.ofBytes_pack (f y)).trans ?_
      rw [hlen, hfill, List.append_nil]
    simp only [Bits.ofBytes, List.flatMap_assoc, hpack]
  have hall : ∀ y ∈ List.range count, (f y).length = stride * 8 := fun y _ => hlen y
  rw [hbits]
  by_cases hy : y < count
  · have hrow : y < (List.range count).length := by rwa [List.length_range]
    rw [if_pos hy, Fax.getD_flatMap_of_eq 0 d hall hx hrow, List.getD_eq_getElem _ _ hrow,
      List.getElem_range]
  · have hend : count * (stride * 8) ≤ y * (stride * 8) := Nat.mul_le_mul_right _ (Nat.le_of_not_lt hy)
    rw [if_neg hy, List.getD_eq_default]
    rw [Fax.length_flatMap_of_eq hall, List.length_range]
    omega

/-! ## Samples -/

namespace Sample

variable {bits count height x y : Nat} {data : Bytes}

/-- The sample at a position as the data holds it: the number that its bits stand for, where rows of `count`
samples begin at whole bytes, and zero after the end of the data. -/
def stored (bits count : Nat) (data : Bytes) (x y : Nat) : Nat :=
  Bits.toNat (((Bits.ofBytes data).drop (y * (rowLength bits count * 8) + x * bits)).take bits)

theorem length_ofRow (bits count : Nat) (row : Bytes) : (ofRow bits count row).length = count :=
  length_fitTo _ _ _

/-- A row has room for its samples. -/
theorem le_rowLength (bits : Nat) (hx : x < count) : (x + 1) * bits ≤ rowLength bits count * 8 := by
  have hrow : (x + 1) * bits ≤ count * bits := Nat.mul_le_mul_right bits hx
  rw [rowLength]
  omega

/-- A row holds the samples that the data holds. Since samples of these sizes do not go over the ends of bytes,
none is there only in part. -/
theorem getD_ofRow (hbits : bits ∣ 8) (hx : x < count) (row : Bytes) :
    (ofRow bits count row).getD x 0 = Bits.toNat (((Bits.ofBytes row).drop (x * bits)).take bits) := by
  rw [ofRow, getD_fitTo hx, Bits.getD_numbers hx]
  split
  · rfl
  · rename_i hend
    obtain ⟨k, hk⟩ := hbits
    have hlen : (Bits.ofBytes row).length = k * row.length * bits := by
      rw [Bits.length_ofBytes, hk]
      ring
    have hpast : (Bits.ofBytes row).length ≤ x * bits := by
      rw [hlen] at hend ⊢
      refine Nat.mul_le_mul_right bits (Nat.le_of_not_lt fun hlt => hend ?_)
      exact Nat.mul_le_mul_right bits hlt
    rw [List.drop_eq_nil_of_le hpast, List.take_nil]
    rfl

/-- Of the rows that are unpacked, each is the part of the data that it takes up. -/
theorem getD_rows (hbits : bits ∣ 8) (hx : x < count) (hy : y < height) :
    ((Bytes.blocks (rowLength bits count) (data.take (rowLength bits count * height))).flatMap
        (ofRow bits count)).getD (y * count + x) 0 =
      (ofRow bits count ((data.drop (y * rowLength bits count)).take (rowLength bits count))).getD x 0 := by
  have hsize : 0 < rowLength bits count := by
    have hpos : 0 < bits := Nat.pos_of_dvd_of_pos hbits (by decide)
    have hroom := le_rowLength bits hx
    have hone : bits ≤ (x + 1) * bits := Nat.le_mul_of_pos_left bits (Nat.succ_pos x)
    omega
  have hempty : (ofRow bits count []).getD x 0 = 0 := by
    rw [getD_ofRow hbits hx, Bits.ofBytes, List.flatMap_nil, List.drop_nil, List.take_nil]
    rfl
  have hwhole : (y + 1) * rowLength bits count ≤ height * rowLength bits count :=
    Nat.mul_le_mul_right _ hy
  rw [Nat.succ_mul, Nat.mul_comm height] at hwhole
  rw [Bytes.getD_flatMap_blocks hsize (length_ofRow bits count) hempty hx, List.drop_take, List.take_take,
    Nat.min_eq_left (by omega)]

/-- Unpacking gives the samples that the data holds. -/
theorem getElem?_unpack (hbits : bits ∣ 8) (hx : x < count) (hy : y < height) :
    (unpack bits count height data)[y * count + x]? = some (stored bits count data x y) := by
  have hplace : y * count + x < count * height := Bilevel.Bitmap.index_lt hx hy
  have hlen : y * count + x < (unpack bits count height data).length := by rwa [length_unpack]
  have hroom := le_rowLength bits hx
  rw [Nat.succ_mul] at hroom
  have hvalue : (unpack bits count height data).getD (y * count + x) 0 = stored bits count data x y := by
    unfold unpack
    dsimp only
    rw [getD_fitTo hplace, getD_rows hbits hx hy, getD_ofRow hbits hx, stored, Bits.ofBytes_take,
      Bits.ofBytes_drop, List.drop_take, List.take_take, Nat.min_eq_left (by omega), List.drop_drop,
      Nat.mul_assoc]
  rw [List.getElem?_eq_getElem hlen, ← hvalue, List.getD_eq_getElem _ _ hlen]

theorem stored_lt (bits count : Nat) (data : Bytes) (x y : Nat) : stored bits count data x y < 2 ^ bits := by
  refine (Bits.toNat_lt _).trans_le (Nat.pow_le_pow_right Nat.two_pos ?_)
  rw [List.length_take]
  exact Nat.min_le_left _ _

/-- Samples of eight bits are the bytes. -/
theorem stored_eight (count : Nat) (data : Bytes) (x y : Nat) :
    stored 8 count data x y = (data.getD (y * count + x) 0).toNat := by
  have hlength : rowLength 8 count = count := by
    rw [rowLength]
    omega
  rw [stored, hlength, ← Nat.mul_assoc, ← Nat.add_mul, ← Bits.ofBytes_drop, List.getD_eq_getElem?_getD,
    ← List.head?_drop]
  cases data.drop (y * count + x) with
  | nil => rfl
  | cons b rest =>
    rw [Bits.ofBytes_cons, List.take_left' (Bits.length_ofNat 8 b.toNat), Bits.toNat_ofNat]
    exact Nat.mod_eq_of_lt b.toNat_lt

/-- Whether the bit of a pixel is set, where each pixel has one. -/
def bit (count : Nat) (data : Bytes) (x y : Nat) : Bool :=
  (Bits.ofBytes data).getD (y * (rowLength 1 count * 8) + x) false

theorem stored_one (count : Nat) (data : Bytes) (x y : Nat) :
    stored 1 count data x y = (bit count data x y).toNat := by
  rw [stored, bit, Nat.mul_one, List.getD_eq_getElem?_getD, ← List.head?_drop]
  cases (Bits.ofBytes data).drop (y * (rowLength 1 count * 8) + x) with
  | nil => rfl
  | cons b rest =>
    show Bits.toNat [b] = b.toNat
    cases b <;> rfl

/-- The place of a pixel's bit is within the row and within the data. -/
theorem place_lt (hx : x < count) (hy : y < height) :
    x < rowLength 1 count * 8 ∧
      y * (rowLength 1 count * 8) + x < rowLength 1 count * height * 8 := by
  have hrow : x < rowLength 1 count * 8 := by
    have hroom := le_rowLength 1 hx
    omega
  refine ⟨hrow, (Bilevel.Bitmap.index_lt hrow hy).trans_eq ?_⟩
  ring

end Sample

end Folio
