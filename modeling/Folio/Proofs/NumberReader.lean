import Folio.Proofs.Bits

/-!
# Readers of numbers of some bits

The samples of images and of functions are numbers of at most 32 bits that follow each other, where rows begin at
whole bytes. `NumberReader.slices` says which numbers these are: all data is one large number, and the bits at some
place are a slice of it. They are read off the list of bits that are left. They can also be read in words: the bytes
that a number lies in are the first of eight, which are shifted and masked. Main statement:
`NumberReader.run_eq_slices`, both ways give the slices, for all numbers that are read one after the other.
-/

namespace Folio

/-- Something numbers are read from, in some state. -/
structure NumberReader (σ : Type) where
  /-- The number that the next bits stand for, if there are that many, and the state after them. -/
  read : Nat → σ → Option Nat × σ
  /-- The state at the next whole byte. -/
  align : σ → σ

/-- What a reader is asked for: a number of at most 32 bits, or to go on to the next whole byte. -/
inductive NumberRequest where
  | read (width : Fin 33)
  | align

namespace NumberReader

variable {σ τ : Type}

/-- The numbers that are read on some requests, and the state after them. -/
def run (r : NumberReader σ) : List NumberRequest → σ → List (Option Nat) × σ
  | [], s => ([], s)
  | .align :: requests, s => r.run requests (r.align s)
  | .read width :: requests, s =>
    let (number, s) := r.read width s
    let (numbers, s) := r.run requests s
    (number :: numbers, s)

/-- Two readers give the same numbers if each request takes related states to related ones. -/
theorem run_eq_of_simulates {r : NumberReader σ} {r' : NumberReader τ} {view : σ → τ} {inv : σ → Prop}
    (hread : ∀ width ≤ 32, ∀ s, inv s →
      inv (r.read width s).2 ∧ r'.read width (view s) = ((r.read width s).1, view (r.read width s).2))
    (halign : ∀ s, inv s → inv (r.align s) ∧ r'.align (view s) = view (r.align s))
    (requests : List NumberRequest) {s : σ} (hs : inv s) :
    r'.run requests (view s) = ((r.run requests s).1, view (r.run requests s).2) := by
  induction requests generalizing s with
  | nil => rfl
  | cons request requests ih =>
    cases request with
    | align =>
      obtain ⟨hnext, heq⟩ := halign s hs
      rw [run, run, heq, ih hnext]
    | read width =>
      obtain ⟨hnext, heq⟩ := hread width (Nat.le_of_lt_succ width.isLt) s hs
      rw [run, run, heq]
      dsimp only
      rw [ih hnext]

/-! ## Slices of the data -/

/-- The number that some bits of data stand for, the highest first: the data as one number, without the bits after
them and before them. -/
def slice (data : Bytes) (place width : Nat) : Nat :=
  data.toNatBE / 2 ^ (data.length * 8 - (place + width)) % 2 ^ width

/-- Numbers are slices of the data. The state is the number of bits that are before the next one; it stays as it is
where fewer bits are left than are asked for. -/
def slices (data : Bytes) : NumberReader Nat where
  read width place :=
    if place + width ≤ data.length * 8 then (some (slice data place width), place + width) else (none, place)
  align place := (place + 7) / 8 * 8

variable {data : Bytes} {place width : Nat}

/-- The place stays within the data. -/
theorem read_slices_le (hplace : place ≤ data.length * 8) : ((slices data).read width place).2 ≤ data.length * 8 := by
  unfold slices
  dsimp only
  split
  · rename_i hle
    exact hle
  · exact hplace

theorem align_slices_le (hplace : place ≤ data.length * 8) : (slices data).align place ≤ data.length * 8 := by
  show (place + 7) / 8 * 8 ≤ data.length * 8
  omega

theorem slice_eq_toNat (h : place + width ≤ data.length * 8) :
    slice data place width = Bits.toNat (((Bits.ofBytes data).drop place).take width) := by
  rw [Bits.toNat_take_drop (by rwa [Bits.length_ofBytes]), Bits.toNat_ofBytes, Bits.length_ofBytes, slice]

/-- A slice lies in the bytes that it touches. -/
theorem slice_eq_slice_part {index offset count : Nat} (hcount : index + count ≤ data.length)
    (hwidth : offset + width ≤ count * 8) :
    slice data (index * 8 + offset) width = slice ((data.drop index).take count) offset width := by
  have hlength : ((data.drop index).take count).length = count := by
    rw [List.length_take, List.length_drop]
    omega
  rw [slice_eq_toNat (by omega), slice_eq_toNat (by rwa [hlength]), Bits.ofBytes_take, Bits.ofBytes_drop,
    List.drop_take, List.take_take, List.drop_drop, Nat.min_eq_left (by omega)]

/-! ## The bits that are left -/

/-- Numbers are read off the bits that are left. -/
def ofBits : NumberReader (List Bool) where
  read width bits := match Bits.read? width bits with
    | some (number, rest) => (some number, rest)
    | none => (none, bits)
  align := Bits.align

theorem read_ofBits (hplace : place ≤ data.length * 8) (width : Nat) :
    ofBits.read width ((Bits.ofBytes data).drop place) =
      (((slices data).read width place).1, (Bits.ofBytes data).drop ((slices data).read width place).2) := by
  have hleft : ((Bits.ofBytes data).drop place).length = data.length * 8 - place := by
    rw [List.length_drop, Bits.length_ofBytes]
  unfold ofBits slices Bits.read?
  dsimp only
  rw [List.splitAt_eq]
  dsimp only
  by_cases hle : place + width ≤ data.length * 8
  · have htaken : (((Bits.ofBytes data).drop place).take width).length = width := by
      rw [List.length_take, hleft]
      omega
    rw [if_pos htaken, if_pos hle, List.drop_drop, slice_eq_toNat hle]
  · have htaken : ¬ (((Bits.ofBytes data).drop place).take width).length = width := by
      rw [List.length_take, hleft]
      omega
    rw [if_neg htaken, if_neg hle]

theorem align_ofBits (hplace : place ≤ data.length * 8) :
    ofBits.align ((Bits.ofBytes data).drop place) = (Bits.ofBytes data).drop ((slices data).align place) := by
  show ((Bits.ofBytes data).drop place).drop (((Bits.ofBytes data).drop place).length % 8) =
    (Bits.ofBytes data).drop ((place + 7) / 8 * 8)
  have hnext : place + (data.length * 8 - place) % 8 = (place + 7) / 8 * 8 := by omega
  rw [List.length_drop, Bits.length_ofBytes, List.drop_drop, hnext]

/-! ## Words -/

/-- Data, and the number of its bits that have been read. -/
structure WordCursor where
  data : Bytes
  place : Nat := 0

namespace WordCursor

/-- The word that begins with some bytes and has zeros after them. -/
def word (bytes : Bytes) : UInt64 := (Bytes.toNatBE (bytes ++ List.replicate (8 - bytes.length) 0)).toUInt64

/-- The word whose lowest bits are set. -/
def mask (width : Nat) : UInt32 := ((1 : UInt64) <<< width.toUInt64 - 1).toUInt32

/-- The number of at most 32 bits at a place. A whole byte is taken as it is. -/
def read (width : Nat) (c : WordCursor) : Option UInt32 × WordCursor :=
  let index := c.place / 8
  let offset := c.place % 8
  if width = 0 then (some 0, c)
  else if width = 8 ∧ offset = 0 then
    match c.data[index]? with
    | some b => (some b.toUInt32, { c with place := c.place + 8 })
    | none => (none, c)
  else if width ≤ 32 then
    match c.data.slice? index (index + (offset + width - 1) / 8 + 1) with
    | some bytes =>
      let number := (word bytes >>> (64 - offset - width).toUInt64).toUInt32 &&& mask width
      (some number, { c with place := c.place + width })
    | none => (none, c)
  else (none, c)

/-- Goes on to the next whole byte, unless one begins here. -/
def align (c : WordCursor) : WordCursor :=
  if c.place % 8 ≠ 0 then { c with place := c.place + (8 - c.place % 8) } else c

theorem toNat_mask {width : Nat} (h : width ≤ 32) : (mask width).toNat = 2 ^ width - 1 := by
  revert width
  decide +kernel

theorem toNat_word {bytes : Bytes} (h : bytes.length ≤ 8) :
    (word bytes).toNat = bytes.toNatBE * 2 ^ (64 - bytes.length * 8) := by
  have hlength : (bytes ++ List.replicate (8 - bytes.length) 0).length = 8 := by
    rw [List.length_append, List.length_replicate]
    omega
  have hlt := Bytes.toNatBE_lt (bytes ++ List.replicate (8 - bytes.length) 0)
  have hexponent : 8 * (8 - bytes.length) = 64 - bytes.length * 8 := by omega
  have hbase : 256 = 2 ^ 8 := rfl
  rw [hlength, hbase, ← pow_mul] at hlt
  rw [word, Nat.toUInt64, UInt64.toNat_ofNat', Nat.mod_eq_of_lt hlt, Bytes.toNatBE_append_replicate, hbase,
    ← pow_mul, hexponent]

/-- The bits after a number are shifted out of the word, and those before it are masked. -/
theorem toNat_cut {bytes : Bytes} {offset width : Nat} (hbytes : bytes.length ≤ 8) (hwidth : width ≤ 32)
    (hpos : 0 < width) (h : offset + width ≤ bytes.length * 8) :
    ((word bytes >>> (64 - offset - width).toUInt64).toUInt32 &&& mask width).toNat = slice bytes offset width := by
  have hshift : (64 - offset - width).toUInt64.toNat % 64 =
      (bytes.length * 8 - (offset + width)) + (64 - bytes.length * 8) := by
    rw [Nat.toUInt64, UInt64.toNat_ofNat']
    omega
  rw [UInt32.toNat_and, toNat_mask hwidth, Nat.and_two_pow_sub_one_eq_mod, UInt64.toNat_toUInt32,
    Nat.mod_mod_of_dvd _ (Nat.pow_dvd_pow 2 hwidth), UInt64.toNat_shiftRight, hshift, Nat.shiftRight_eq_div_pow,
    toNat_word hbytes, pow_add, Nat.mul_div_mul_right _ _ (Nat.two_pow_pos _), slice]

end WordCursor

/-- Numbers are cut out of words. -/
def ofWords : NumberReader WordCursor where
  read width c := ((c.read width).1.map UInt32.toNat, (c.read width).2)
  align := WordCursor.align

/-- A number that is a whole byte. -/
theorem slice_byte {index : Nat} (h : index < data.length) : slice data (index * 8) 8 = data[index].toNat := by
  rw [slice_eq_toNat (by omega), ← Bits.ofBytes_drop, List.drop_eq_getElem_cons h, Bits.ofBytes_cons,
    List.take_left' (Bits.length_ofNat 8 _), Bits.toNat_ofNat]
  exact Nat.mod_eq_of_lt data[index].toNat_lt

theorem read_ofWords (hplace : place ≤ data.length * 8) (hwidth : width ≤ 32) :
    ofWords.read width ⟨data, place⟩ =
      (((slices data).read width place).1, ⟨data, ((slices data).read width place).2⟩) := by
  have hparts : place / 8 * 8 + place % 8 = place := Nat.div_add_mod' place 8
  unfold ofWords slices WordCursor.read
  dsimp only
  by_cases hzero : width = 0
  · subst hzero
    rw [if_pos rfl, if_pos (by omega), slice, pow_zero, Nat.mod_one]
    rfl
  rw [if_neg hzero]
  by_cases hbyte : width = 8 ∧ place % 8 = 0
  · rw [if_pos hbyte]
    obtain ⟨rfl, haligned⟩ := hbyte
    rw [haligned, Nat.add_zero] at hparts
    by_cases hlt : place / 8 < data.length
    · have hslice := slice_byte hlt
      rw [hparts] at hslice
      rw [List.getElem?_eq_getElem hlt, if_pos (by omega), hslice]
      rfl
    · rw [List.getElem?_eq_none (Nat.le_of_not_lt hlt), if_neg (by omega)]
      rfl
  rw [if_neg hbyte, if_pos hwidth]
  -- The bytes that the number touches are there if and only if its bits are.
  have hcount : place % 8 + width ≤ ((place % 8 + width - 1) / 8 + 1) * 8 := by omega
  rw [Nat.add_assoc]
  generalize hcountEq : (place % 8 + width - 1) / 8 + 1 = count at hcount ⊢
  by_cases hle : place + width ≤ data.length * 8
  · have hthere : place / 8 + count ≤ data.length := by omega
    have hlength : ((data.drop (place / 8)).take count).length = count := by
      rw [List.length_take, List.length_drop]
      omega
    have hslice := slice_eq_slice_part hthere hcount
    rw [hparts] at hslice
    have htouched : place % 8 + width ≤ ((data.drop (place / 8)).take count).length * 8 := by rwa [hlength]
    have hcut := WordCursor.toNat_cut (by omega) hwidth (Nat.pos_of_ne_zero hzero) htouched
    rw [Bytes.slice?, if_pos ⟨Nat.le_add_right _ _, hthere⟩, Nat.add_sub_cancel_left, if_pos hle, hslice, ← hcut]
    rfl
  · have hmissing : ¬ (place / 8 ≤ place / 8 + count ∧ place / 8 + count ≤ data.length) := by omega
    rw [Bytes.slice?, if_neg hmissing, if_neg hle]
    rfl

theorem align_ofWords : ofWords.align ⟨data, place⟩ = ⟨data, (slices data).align place⟩ := by
  unfold ofWords WordCursor.align slices
  dsimp only
  split
  · exact congrArg (WordCursor.mk data) (by omega)
  · exact congrArg (WordCursor.mk data) (by omega)

/-! ## Any requests -/

/-- Numbers that are read one after the other are slices of the data, whether they are read off a list of bits or cut
out of words. Each begins where the ones before it, as far as they are there, and the steps to whole bytes end. -/
theorem run_eq_slices (data : Bytes) (requests : List NumberRequest) :
    let (numbers, place) := (slices data).run requests 0
    ofBits.run requests (Bits.ofBytes data) = (numbers, (Bits.ofBytes data).drop place) ∧
      ofWords.run requests { data } = (numbers, { data, place }) := by
  constructor
  · exact run_eq_of_simulates (fun _ _ _ hplace => ⟨read_slices_le hplace, read_ofBits hplace _⟩)
      (fun _ hplace => ⟨align_slices_le hplace, align_ofBits hplace⟩) requests (Nat.zero_le (data.length * 8))
  · exact run_eq_of_simulates (fun _ hwidth _ hplace => ⟨read_slices_le hplace, read_ofWords hplace hwidth⟩)
      (fun _ hplace => ⟨align_slices_le hplace, align_ofWords⟩) requests (Nat.zero_le (data.length * 8))

end NumberReader

end Folio
