import Mathlib
import Folio.Bits
import Folio.Proofs.Bytes

/-!
# Packing bits into bytes

Main statements: packed bytes hold the bits that were packed and fewer than eight zeros, a bit at some
place of the bytes is the bit of the byte there, a number at some place of a sequence of numbers of one
width is that of the bits there, and the bits at some place stand for a slice of the number that all bits
stand for.
-/

namespace Folio.Bits

@[simp] theorem length_ofNat (count n : Nat) : (ofNat count n).length = count := by
  induction count with
  | zero => rfl
  | succ count ih => rw [ofNat, List.length_cons, ih]

/-- The lowest bit is the last one. -/
theorem ofNat_succ (count n : Nat) :
    ofNat (count + 1) n = ofNat count (n / 2) ++ [n.testBit 0] := by
  induction count with
  | zero => rfl
  | succ count ih =>
    rw [ofNat, ih, ofNat, Nat.testBit_succ, List.cons_append]

theorem toNat_append_singleton (bits : List Bool) (b : Bool) :
    toNat (bits ++ [b]) = toNat bits * 2 + b.toNat := by
  simp [toNat, List.foldl_append]

theorem ofNat_toNat (bits : List Bool) : ofNat bits.length (toNat bits) = bits := by
  induction bits using List.reverseRecOn with
  | nil => rfl
  | append_singleton bits b ih =>
    have hhalf : (toNat bits * 2 + b.toNat) / 2 = toNat bits := by
      have := b.toNat_lt
      omega
    have hlow : (toNat bits * 2 + b.toNat).testBit 0 = b := by
      rw [Nat.testBit_zero]
      cases b <;> simp
    rw [List.length_append, List.length_singleton, toNat_append_singleton, ofNat_succ, hhalf, ih,
      hlow]

theorem toNat_lt (bits : List Bool) : toNat bits < 2 ^ bits.length := by
  induction bits using List.reverseRecOn with
  | nil => exact Nat.one_pos
  | append_singleton bits b ih =>
    have := b.toNat_lt
    rw [List.length_append, List.length_singleton, toNat_append_singleton, pow_succ]
    omega

theorem toNat_ofNat (count n : Nat) : toNat (ofNat count n) = n % 2 ^ count := by
  induction count generalizing n with
  | zero => exact (Nat.mod_one n).symm
  | succ count ih =>
    have hlow : (n.testBit 0).toNat = n % 2 := by
      rw [Nat.testBit_zero]
      rcases Nat.mod_two_eq_zero_or_one n with h | h <;> simp [h]
    rw [ofNat_succ, toNat_append_singleton, ih, hlow, Nat.pow_succ', Nat.mod_mul, Nat.mul_comm, Nat.add_comm]

theorem toNat_append_zeros (bits : List Bool) (count : Nat) :
    toNat (bits ++ List.replicate count false) = toNat bits * 2 ^ count := by
  induction count with
  | zero => simp
  | succ count ih =>
    rw [List.replicate_succ', ← List.append_assoc, toNat_append_singleton, ih, pow_succ,
      Nat.mul_assoc]
    rfl

theorem ofNat_toByte {bits : List Bool} (h : bits.length ≤ 8) :
    ofNat 8 (toByte bits).toNat = bits ++ List.replicate (8 - bits.length) false := by
  have hlen : (bits ++ List.replicate (8 - bits.length) false).length = 8 := by
    rw [List.length_append, List.length_replicate]
    omega
  have hlt := toNat_lt (bits ++ List.replicate (8 - bits.length) false)
  have hword := ofNat_toNat (bits ++ List.replicate (8 - bits.length) false)
  rw [hlen, toNat_append_zeros] at hlt hword
  rw [toByte, Nat.shiftLeft_eq, Nat.toUInt8, UInt8.toNat_ofNat', Nat.mod_eq_of_lt hlt, hword]

/-- The zeros that complete a number of bits to whole bytes. -/
def fill (count : Nat) : List Bool := List.replicate ((8 - count % 8) % 8) false

theorem ofBytes_cons (b : UInt8) (bytes : Bytes) :
    ofBytes (b :: bytes) = ofNat 8 b.toNat ++ ofBytes bytes := rfl

/-- Packed bytes hold the bits and what fills the last byte. -/
theorem ofBytes_pack (bits : List Bool) : ofBytes (pack bits) = bits ++ fill bits.length := by
  induction bits using pack.induct with
  | case1 b0 b1 b2 b3 b4 b5 b6 b7 bits ih =>
    have hfill : fill (bits.length + 8) = fill bits.length := by
      rw [fill, fill, Nat.add_mod_right]
    have hbyte : [b0, b1, b2, b3, b4, b5, b6, b7].length ≤ 8 := Nat.le_refl 8
    rw [pack, ofBytes_cons, ih, ofNat_toByte hbyte]
    change _ = b0 :: b1 :: b2 :: b3 :: b4 :: b5 :: b6 :: b7 :: (bits ++ fill (bits.length + 8))
    rw [hfill]
    rfl
  | case2 => rfl
  | case3 bits hlong hne =>
    have hlt : bits.length < 8 := by
      refine Nat.lt_of_not_le fun hle => ?_
      match bits, hle with
      | b0 :: b1 :: b2 :: b3 :: b4 :: b5 :: b6 :: b7 :: bits, _ =>
        exact hlong b0 b1 b2 b3 b4 b5 b6 b7 bits rfl
    have hpos : 0 < bits.length := List.length_pos_iff.mpr hne
    have hcount : (8 - bits.length % 8) % 8 = 8 - bits.length := by omega
    rw [pack.eq_3 bits hlong hne, ofBytes_cons, ofNat_toByte hlt.le, fill, hcount]
    exact List.append_nil _

theorem length_ofBytes (bytes : Bytes) : (ofBytes bytes).length = bytes.length * 8 := by
  induction bytes with
  | nil => rfl
  | cons b bytes ih =>
    rw [ofBytes_cons, List.length_append, length_ofNat, ih, List.length_cons]
    omega

theorem length_pack (bits : List Bool) : (pack bits).length = (bits.length + 7) / 8 := by
  have hlen := length_ofBytes (pack bits)
  rw [ofBytes_pack, List.length_append, fill, List.length_replicate] at hlen
  omega

theorem toNat_zeros {bits : List Bool} (h : ∀ b ∈ bits, b = false) : toNat bits = 0 := by
  rw [List.eq_replicate_of_mem h, ← List.nil_append (List.replicate _ _), toNat_append_zeros]
  exact Nat.zero_mul _

theorem toByte_zeros {bits : List Bool} (h : ∀ b ∈ bits, b = false) : toByte bits = 0 := by
  rw [toByte, toNat_zeros h, Nat.zero_shiftLeft]
  rfl

/-- Bits that are not set fill bytes that are zero. -/
theorem pack_zeros {bits : List Bool} (h : ∀ b ∈ bits, b = false) :
    pack bits = List.replicate ((bits.length + 7) / 8) 0 := by
  induction bits using pack.induct with
  | case1 b0 b1 b2 b3 b4 b5 b6 b7 bits ih =>
    have hcount : (b0 :: b1 :: b2 :: b3 :: b4 :: b5 :: b6 :: b7 :: bits).length = bits.length + 8 := rfl
    have hbyte : ∀ b ∈ [b0, b1, b2, b3, b4, b5, b6, b7], b = false := fun b hb =>
      h b (List.mem_append_left bits hb)
    have hrest : ∀ b ∈ bits, b = false := fun b hb =>
      h b (List.mem_append_right [b0, b1, b2, b3, b4, b5, b6, b7] hb)
    rw [pack, toByte_zeros hbyte, ih hrest, hcount, ← List.replicate_succ]
    congr 1
    omega
  | case2 => rfl
  | case3 bits hlong hne =>
    have hlength := length_pack bits
    rw [pack.eq_3 bits hlong hne] at hlength ⊢
    rw [← hlength, toByte_zeros h]
    rfl

theorem testBit_eq_getD {b : UInt8} {place : Nat} (h : place < 8) :
    testBit b place = (ofNat 8 b.toNat).getD place false := by
  match place, h with
  | 0, _ | 1, _ | 2, _ | 3, _ | 4, _ | 5, _ | 6, _ | 7, _ => rfl

/-- A bit at some place of the bytes is the bit of the byte there. -/
theorem getD_ofBytes (bytes : Bytes) (i : Nat) {place : Nat} (h : place < 8) :
    (ofBytes bytes).getD (i * 8 + place) false = (bytes[i]?).any (testBit · place) := by
  induction bytes generalizing i with
  | nil => rfl
  | cons b bytes ih =>
    rw [ofBytes_cons]
    cases i with
    | zero =>
      rw [Nat.zero_mul, Nat.zero_add, List.getD_append _ _ _ _ (by rw [length_ofNat]; exact h),
        ← testBit_eq_getD h]
      rfl
    | succ i =>
      have hindex : (i + 1) * 8 + place - 8 = i * 8 + place := by omega
      rw [List.getD_append_right _ _ _ _ (by rw [length_ofNat]; omega), length_ofNat, hindex, ih]
      rfl

theorem ofBytes_append (front back : Bytes) : ofBytes (front ++ back) = ofBytes front ++ ofBytes back :=
  List.flatMap_append

theorem ofBytes_take (bytes : Bytes) (count : Nat) :
    ofBytes (bytes.take count) = (ofBytes bytes).take (count * 8) := by
  rcases Nat.le_total count bytes.length with h | h
  · have hlen : (ofBytes (bytes.take count)).length = count * 8 := by
      rw [length_ofBytes, List.length_take_of_le h]
    conv_rhs => rw [← List.take_append_drop count bytes, ofBytes_append, List.take_left' hlen]
  · have hall : (ofBytes bytes).length ≤ count * 8 := by
      rw [length_ofBytes]
      omega
    rw [List.take_of_length_le h, List.take_of_length_le hall]

theorem ofBytes_drop (bytes : Bytes) (count : Nat) :
    ofBytes (bytes.drop count) = (ofBytes bytes).drop (count * 8) := by
  rcases Nat.le_total count bytes.length with h | h
  · have hlen : (ofBytes (bytes.take count)).length = count * 8 := by
      rw [length_ofBytes, List.length_take_of_le h]
    conv_rhs => rw [← List.take_append_drop count bytes, ofBytes_append, List.drop_left' hlen]
  · have hall : (ofBytes bytes).length ≤ count * 8 := by
      rw [length_ofBytes]
      omega
    rw [List.drop_eq_nil_of_le h, List.drop_eq_nil_of_le hall]
    rfl

theorem ofNat_complement (b : UInt8) : ofNat 8 (~~~ b).toNat = (ofNat 8 b.toNat).map (! ·) := by
  revert b
  decide +kernel

theorem ofBytes_complement (bytes : Bytes) :
    ofBytes (bytes.map (~~~ ·)) = (ofBytes bytes).map (! ·) := by
  induction bytes with
  | nil => rfl
  | cons b bytes ih => rw [List.map_cons, ofBytes_cons, ofBytes_cons, ih, ofNat_complement, List.map_append]

/-- The number at some place of a sequence, if the sequence goes on that far. -/
theorem getD_numbers {width count x : Nat} (h : x < count) (bits : List Bool) :
    (numbers width count bits).getD x 0 =
      if (x + 1) * width ≤ bits.length then toNat ((bits.drop (x * width)).take width) else 0 := by
  induction count generalizing x bits with
  | zero => cases h
  | succ count ih =>
    have hread : read? width bits =
        if width ≤ bits.length then some (toNat (bits.take width), bits.drop width) else none := by
      simp [read?]
    rw [numbers, hread]
    by_cases hle : width ≤ bits.length
    · rw [if_pos hle]
      cases x with
      | zero => simp [hle]
      | succ x =>
        have hlen : (x + 1) * width ≤ (bits.drop width).length ↔ (x + 1 + 1) * width ≤ bits.length := by
          rw [List.length_drop, Nat.succ_mul (x + 1)]
          omega
        have hplace : (bits.drop width).drop (x * width) = bits.drop ((x + 1) * width) := by
          rw [List.drop_drop, Nat.succ_mul, Nat.add_comm]
        simp only [List.getD_cons_succ, ih (Nat.lt_of_succ_lt_succ h), hlen, hplace]
    · have hmore : ¬ (x + 1) * width ≤ bits.length := by
        have hwidth : width ≤ (x + 1) * width := Nat.le_mul_of_pos_left width (Nat.succ_pos x)
        omega
      rw [if_neg hle, if_neg hmore]
      rfl

theorem toNat_append (front back : List Bool) :
    toNat (front ++ back) = toNat front * 2 ^ back.length + toNat back := by
  induction back using List.reverseRecOn with
  | nil => rw [List.append_nil, List.length_nil, pow_zero, Nat.mul_one]; rfl
  | append_singleton back b ih =>
    rw [← List.append_assoc, toNat_append_singleton, toNat_append_singleton, ih, List.length_append,
      List.length_singleton, pow_succ]
    ring

/-- Bytes stand for the number that their bits stand for. -/
theorem toNat_ofBytes (bytes : Bytes) : toNat (ofBytes bytes) = bytes.toNatBE := by
  induction bytes using List.reverseRecOn with
  | nil => rfl
  | append_singleton bytes b ih =>
    have hbyte : ofBytes [b] = ofNat 8 b.toNat := List.append_nil _
    have hbase : 2 ^ 8 = 256 := rfl
    rw [ofBytes_append, toNat_append, ih, Bytes.toNatBE_append_singleton, hbyte, length_ofNat, toNat_ofNat,
      Nat.mod_eq_of_lt b.toNat_lt, hbase]

/-- The number that the bits at some place stand for. -/
theorem toNat_take_drop {bits : List Bool} {place width : Nat} (h : place + width ≤ bits.length) :
    toNat ((bits.drop place).take width) = toNat bits / 2 ^ (bits.length - (place + width)) % 2 ^ width := by
  have hlength : ((bits.drop place).take width).length = width := by
    rw [List.length_take, List.length_drop]
    omega
  have hlt := toNat_lt ((bits.drop place).take width)
  have hrest := toNat_lt (bits.drop (place + width))
  have hparts : bits = bits.take place ++ (bits.drop place).take width ++ bits.drop (place + width) := by
    rw [List.append_assoc, ← List.drop_drop, List.take_append_drop, List.take_append_drop]
  rw [hlength] at hlt
  conv_rhs => rw [hparts]
  rw [toNat_append, toNat_append, ← hparts, hlength, ← List.length_drop, Nat.mul_comm _ (2 ^ _),
    Nat.mul_add_div (Nat.two_pow_pos _), Nat.div_eq_of_lt hrest, Nat.add_zero, Nat.mul_comm, Nat.mul_add_mod,
    Nat.mod_eq_of_lt hlt]

end Folio.Bits
