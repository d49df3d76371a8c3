import Folio.Proofs.Bilevel.ArithmeticInterval

/-!
# Decoding what an arithmetic encoder wrote

Main statement: a decoder that starts on the data of an encoder reads the bits that were encoded, in
the same contexts, whatever follows the marker at the end of the data.

The decoder keeps the complement of the code string within the interval of the encoder at the same
time. It reads bytes when the encoder needs digits of their weight, long before they are written, so
its state is related to the interval and not to the bytes of the encoder.
-/

namespace Folio.Bilevel

open ArithmeticEncoder

/-- The bytes that a decoder sees, after the one that is no part of the data. -/
def codeStream (s tail : Bytes) : Bytes := s.reverse ++ marker s ++ tail

/-- How far a decoder has read: up to the latest byte of `w`, or beyond the end of the data, where
`w` is all of it and only ones follow. -/
inductive Place (s w : Bytes) (v position ct : Nat) : Prop
  | reading : v + ct = 16 → position + 2 = w.length → Place s w v position ct
  | last : w = s → position + 2 = w.length → Place s w v position ct
  | ended : w = s → position + 1 = w.length → s.head? ≠ some 0xFF → Place s w v position ct

/-- The state of a decoder that has read the bytes `w` of the code string `s`: `c` is what is left
of the encoder's interval above the string so far, whose last digit has the weight `2 ^ v`. -/
structure Follows (d : ArithmeticDecoder) (e : ArithmeticEncoder) (s tail w : Bytes) (v : Nat) :
    Prop where
  data_eq : d.data.toList = (codeStream s tail).tail
  suffix : w <:+ s
  digits_eq : codeDigits w + v = e.scale + 16
  c_eq : d.c.toNat + (codeValue w + 1) * 2 ^ v = (e.base + e.a) * 2 ^ 16
  a_eq : d.a.toNat = e.a
  place : Place s w v d.position d.ct.toNat

variable {d : ArithmeticDecoder} {e e' : ArithmeticEncoder} {s tail w : Bytes} {v : Nat}

theorem Place.le_or_eq {position ct : Nat} (h : Place s w v position ct) : v ≤ 16 ∨ w = s := by
  cases h with
  | reading hv _ => exact .inl (Nat.le.intro hv)
  | last h _ => exact .inr h
  | ended h _ _ => exact .inr h

/-! ## The string so far and the interval -/

/-- The encoder has not written yet what the decoder needs. -/
theorem ArithmeticEncoder.Leads.length_lt (h : Leads e s) (hvalid : e.Valid) (hw : w <:+ s)
    (hdigits : e.scale ≤ codeDigits w) : e.written.length < w.length := by
  refine Nat.lt_of_not_le fun hle => ?_
  obtain ⟨w', hw', hlen, hdigits', -⟩ := h.completes.exists_suffix
  have hdigits_le := codeDigits_le_of_suffix (List.suffix_of_suffix_length_le hw hw' (by omega))
  have hct := hvalid.ct_le
  rw [scale] at hdigits
  omega

/-- What has been read leads into the interval: upwards since the string lies in it and its end is a
multiple of the last digit read, downwards since the encoder has not written so far yet. -/
theorem ArithmeticEncoder.Leads.bounds (h : Leads e s) (hvalid : e.Valid) (hw : w <:+ s)
    (hdigits : codeDigits w + v = e.scale + 16) (hv : v ≤ 16 ∨ w = s) :
    e.base * 2 ^ 16 < (codeValue w + 1) * 2 ^ v ∧
      (codeValue w + 1) * 2 ^ v ≤ (e.base + e.a) * 2 ^ 16 := by
  constructor
  · rw [← @frac_lt_frac _ _ (e.scale + 16), frac_mul_two_pow, ← hdigits, frac_mul_two_pow]
    rcases hv with hv | rfl
    · exact h.ahead w hw (h.length_lt hvalid hw (by omega))
    · exact h.low_lt
  · rcases hv with hv | rfl
    · have hlow : codeLow w < e.high :=
        (codeLow_le_of_suffix hw).trans_lt ((codeLow_lt_codeHigh s).trans_le h.le_high)
      have hpow : 2 ^ 16 = 2 ^ (16 - v) * 2 ^ v := by rw [← pow_add, Nat.sub_add_cancel hv]
      rw [codeLow, high, ← frac_mul_two_pow _ _ v, ← frac_mul_two_pow (e.base + e.a) _ 16, hdigits,
        frac_lt_frac, hpow, ← Nat.mul_assoc] at hlow
      rw [hpow, ← Nat.mul_assoc]
      exact Nat.mul_le_mul_right _ (Nat.lt_of_mul_lt_mul_right hlow)
    · have hhigh := h.le_high
      rw [codeHigh, high, ← frac_mul_two_pow _ _ v, ← frac_mul_two_pow (e.base + e.a) _ 16,
        hdigits, frac_le_frac] at hhigh
      exact hhigh

theorem Follows.bounds (h : Follows d e s tail w v) (hleads : Leads e s) (hvalid : e.Valid) :
    e.base * 2 ^ 16 < (codeValue w + 1) * 2 ^ v ∧
      (codeValue w + 1) * 2 ^ v ≤ (e.base + e.a) * 2 ^ 16 :=
  hleads.bounds hvalid h.suffix h.digits_eq h.place.le_or_eq

/-! ## Taking bytes -/

theorem Follows.byte_eq (h : Follows d e s tail w v) (k : Nat) :
    d.byte k = (codeStream s tail).getD (d.position + k + 1) 0xFF := by
  rw [ArithmeticDecoder.byte, Array.getD_eq_getD_getElem?, ← Array.getElem?_toList,
    ← List.getD_eq_getElem?_getD, h.data_eq]
  cases codeStream s tail with
  | nil => rfl
  | cons b rest => rw [List.tail_cons, List.getD_cons_succ]

theorem codeStream_getD {b : UInt8} (hs : b :: w <:+ s) :
    (codeStream s tail).getD w.length 0xFF = b := by
  obtain ⟨later, rfl⟩ := hs
  have hlen : w.length = w.reverse.length := List.length_reverse.symm
  rw [codeStream, List.reverse_append, List.reverse_cons, List.append_assoc, List.append_assoc,
    List.append_assoc, hlen, List.getD_append_right _ _ _ _ (Nat.le_refl _), Nat.sub_self]
  rfl

theorem codeStream_getD_length (k : Nat) :
    (codeStream s tail).getD (s.length + k) 0xFF = (marker s ++ tail).getD k 0xFF := by
  have hle : s.reverse.length ≤ s.length + k := by
    rw [List.length_reverse]
    exact Nat.le_add_right _ _
  rw [codeStream, List.append_assoc, List.getD_append_right _ _ _ _ hle, List.length_reverse,
    Nat.add_sub_cancel_left]

theorem toNat_add_seven {c : UInt32} {b : UInt8} {n : Nat} (hn : n < 2 ^ 32)
    (h : c.toNat + 0x10000 = n + (b.toNat + 1) * 512) :
    (c + (0xFE00 - b.toUInt32 * 512)).toNat = n := by
  have hc := c.toNat_lt
  have hb := b.toNat_lt
  simp only [UInt32.toNat_add, UInt32.toNat_sub, UInt32.toNat_mul, UInt8.toNat_toUInt32,
    UInt32.reduceToNat]
  omega

theorem toNat_add_eight {c : UInt32} {b : UInt8} {n : Nat} (hn : n < 2 ^ 32)
    (h : c.toNat + 0x10000 = n + (b.toNat + 1) * 256) :
    (c + (0xFF00 - b.toUInt32 * 256)).toNat = n := by
  have hc := c.toNat_lt
  have hb := b.toNat_lt
  simp only [UInt32.toNat_add, UInt32.toNat_sub, UInt32.toNat_mul, UInt8.toNat_toUInt32,
    UInt32.reduceToNat]
  omega

/-- The last byte that the decoder has taken. -/
theorem Follows.byte_zero (h : Follows d e s tail w v) (hpos : d.position + 2 = w.length) :
    ∃ last earlier, w = last :: earlier ∧ d.byte 0 = last := by
  cases w with
  | nil => exact absurd hpos (Nat.succ_ne_zero _)
  | cons last earlier =>
    refine ⟨last, earlier, rfl, ?_⟩
    rw [List.length_cons] at hpos
    rw [h.byte_eq, show d.position + 0 + 1 = earlier.length by omega]
    exact codeStream_getD h.suffix

theorem takeByte_seven (hlast : d.byte 0 = 0xFF) (hnext : ¬ d.byte 1 > 0x8F) :
    d.takeByte = { d with
      position := d.position + 1
      c := d.c + (0xFE00 - (d.byte 1).toUInt32 * 512)
      ct := 7 } := by
  rw [ArithmeticDecoder.takeByte, if_pos hlast, if_neg hnext]

theorem takeByte_eight (hlast : d.byte 0 ≠ 0xFF) :
    d.takeByte = { d with
      position := d.position + 1
      c := d.c + (0xFF00 - (d.byte 1).toUInt32 * 256)
      ct := 8 } := by
  rw [ArithmeticDecoder.takeByte, if_neg hlast]

theorem takeByte_marker (hlast : d.byte 0 = 0xFF) (hnext : d.byte 1 > 0x8F) :
    d.takeByte = { d with ct := 8 } := by
  rw [ArithmeticDecoder.takeByte, if_pos hlast, if_pos hnext]

/-- Taking a byte of the data. -/
theorem Follows.takeByte_data (h : Follows d e s tail w 16) (hleads : Leads e s)
    (hvalid : e.Valid) (hpos : d.position + 2 = w.length) {b : UInt8} (hs : b :: w <:+ s) :
    Follows d.takeByte e s tail (b :: w) (16 - digitsAfter w) ∧ 0 < d.takeByte.ct.toNat := by
  obtain ⟨last, earlier, hw, hlast⟩ := h.byte_zero hpos
  have hnext : d.byte 1 = b := by
    rw [h.byte_eq, show d.position + 1 + 1 = w.length by omega]
    exact codeStream_getD hs
  have hdigits_w := h.digits_eq
  have hdigits : codeDigits (b :: w) + (16 - digitsAfter w) = e.scale + 16 := by
    rcases digitsAfter_eq w with hd | hd <;> rw [codeDigits, hd] <;> omega
  have hbounds := hleads.bounds hvalid hs hdigits (.inl (Nat.sub_le 16 _))
  have hlen := hleads.length_lt hvalid h.suffix (by omega)
  have hpos' : d.position + 1 + 2 = (b :: w).length := by
    rw [List.length_cons]
    omega
  have ha := hvalid.a_le
  have hc := h.c_eq
  by_cases hff : last = 0xFF
  · subst hff
    have hseven : digitsAfter w = 7 := by rw [hw]; rfl
    have hb : ¬ b > 0x8F := by
      rw [hw] at hs hlen
      exact Nat.not_lt.mpr (Nat.le_of_lt_succ (hleads.stuffed b earlier hs hlen))
    rw [codeValue, hseven] at hbounds
    rw [takeByte_seven hlast (hnext ▸ hb), hnext, hseven]
    rw [hseven] at hdigits
    have hsum := toNat_add_seven (c := d.c) (b := b)
      (n := (e.base + e.a) * 2 ^ 16 - (codeValue w * 2 ^ 7 + b.toNat + 1) * 2 ^ 9)
      (by omega) (by omega)
    refine ⟨⟨h.data_eq, hs, hdigits, ?_, h.a_eq, .reading rfl hpos'⟩, Nat.succ_pos 6⟩
    rw [codeValue, hseven, hsum]
    omega
  · have height : digitsAfter w = 8 := by rw [hw]; exact digitsAfter_of_ne hff
    rw [codeValue, height] at hbounds
    rw [takeByte_eight (hlast ▸ hff), hnext, height]
    rw [height] at hdigits
    have hsum := toNat_add_eight (c := d.c) (b := b)
      (n := (e.base + e.a) * 2 ^ 16 - (codeValue w * 2 ^ 8 + b.toNat + 1) * 2 ^ 8)
      (by omega) (by omega)
    refine ⟨⟨h.data_eq, hs, hdigits, ?_, h.a_eq, .reading rfl hpos'⟩, Nat.succ_pos 7⟩
    rw [codeValue, height, hsum]
    omega

/-- Taking a byte where the marker stands. -/
theorem Follows.takeByte_end (h : Follows d e s tail s v) (hpos : d.position + 2 = s.length) :
    Follows d.takeByte e s tail s v ∧ 0 < d.takeByte.ct.toNat := by
  obtain ⟨last, earlier, hs, hlast⟩ := h.byte_zero hpos
  have hnext : d.byte 1 = (marker s ++ tail).getD 0 0xFF := by
    rw [h.byte_eq, show d.position + 1 + 1 = s.length + 0 by omega, codeStream_getD_length]
  by_cases hff : last = 0xFF
  · have hmarker : marker s = [0xAC] := by rw [marker, hs, hff]; rfl
    have hac : d.byte 1 = 0xAC := by rw [hnext, hmarker]; rfl
    rw [takeByte_marker (hlast.trans hff) (hac ▸ by decide)]
    exact ⟨⟨h.data_eq, h.suffix, h.digits_eq, h.c_eq, h.a_eq, .last rfl hpos⟩, Nat.succ_pos 7⟩
  · have hhead : s.head? ≠ some 0xFF := by
      rw [hs, List.head?_cons]
      exact fun heq => hff (Option.some.inj heq)
    have hone : d.byte 1 = 0xFF := by rw [hnext, marker, if_neg hhead]; rfl
    have hzero : d.c + (0xFF00 - (0xFF : UInt8).toUInt32 * 256) = d.c := by
      rw [show (0xFF00 - (0xFF : UInt8).toUInt32 * 256 : UInt32) = 0 by decide, UInt32.add_zero]
    rw [takeByte_eight (hlast ▸ hff), hone, hzero]
    exact ⟨⟨h.data_eq, h.suffix, h.digits_eq, h.c_eq, h.a_eq, .ended rfl (by omega) hhead⟩,
      Nat.succ_pos 7⟩

/-- Taking a byte when the first byte of the marker has been taken. -/
theorem Follows.takeByte_ended (h : Follows d e s tail s v) (hpos : d.position + 1 = s.length)
    (hhead : s.head? ≠ some 0xFF) :
    Follows d.takeByte e s tail s v ∧ 0 < d.takeByte.ct.toNat := by
  have hmarker : marker s = [0xFF, 0xAC] := if_neg hhead
  have hlast : d.byte 0 = 0xFF := by
    rw [h.byte_eq, show d.position + 0 + 1 = s.length + 0 by omega, codeStream_getD_length, hmarker]
    rfl
  have hnext : d.byte 1 = 0xAC := by
    rw [h.byte_eq, show d.position + 1 + 1 = s.length + 1 by omega, codeStream_getD_length, hmarker]
    rfl
  rw [takeByte_marker hlast (hnext ▸ by decide)]
  exact ⟨⟨h.data_eq, h.suffix, h.digits_eq, h.c_eq, h.a_eq, .ended rfl hpos hhead⟩, Nat.succ_pos 7⟩

theorem suffix_eq_or_cons {α : Type} {w s : List α} (h : w <:+ s) : w = s ∨ ∃ b, b :: w <:+ s := by
  obtain ⟨later, rfl⟩ := h
  rcases later.eq_nil_or_concat with rfl | ⟨later, b, rfl⟩
  · exact .inl rfl
  · exact .inr ⟨b, later, by simp⟩

theorem Follows.takeByte (h : Follows d e s tail w v) (hleads : Leads e s) (hvalid : e.Valid)
    (hct : d.ct = 0) :
    ∃ w v, Follows d.takeByte e s tail w v ∧ 0 < d.takeByte.ct.toNat := by
  cases h.place with
  | reading hv hpos =>
    obtain rfl : v = 16 := by rw [hct] at hv; exact hv
    rcases suffix_eq_or_cons h.suffix with rfl | ⟨b, hs⟩
    · exact ⟨_, _, h.takeByte_end hpos⟩
    · exact ⟨_, _, h.takeByte_data hleads hvalid hpos hs⟩
  | last hw hpos =>
    subst hw
    exact ⟨_, _, h.takeByte_end hpos⟩
  | ended hw hpos hhead =>
    subst hw
    exact ⟨_, _, h.takeByte_ended hpos hhead⟩

/-! ## Doubling -/

theorem toNat_shiftLeft_one {x : UInt32} (h : x.toNat < 2 ^ 31) :
    (x <<< 1).toNat = x.toNat * 2 := by
  rw [UInt32.toNat_shiftLeft, show (1 : UInt32).toNat % 32 = 1 from rfl, Nat.shiftLeft_eq, pow_one]
  omega

theorem and_half_ne_zero {x : UInt32} (h : x.toNat < 0x10000) :
    x &&& 0x8000 ≠ 0 ↔ 0x8000 ≤ x.toNat := by
  rw [ne_eq, ← UInt32.toNat_inj, UInt32.toNat_and, show (0x8000 : UInt32).toNat = 2 ^ 15 from rfl,
    Nat.and_two_pow, Nat.testBit_eq_decide_div_mod_eq]
  by_cases hbit : x.toNat / 2 ^ 15 % 2 = 1
  · simp only [hbit, decide_true, Bool.toNat_true, Nat.one_mul]
    constructor
    · intro _
      omega
    · intro _ heq
      exact absurd heq (by decide)
  · simp only [hbit, decide_false, Bool.toNat_false, Nat.zero_mul]
    constructor
    · intro hne
      exact absurd rfl hne
    · intro hle
      omega

theorem Follows.shift (h : Follows d e s tail w v) (hleads : Leads e s) (hvalid : e.Valid)
    (ha : e.a < 0x8000) (hpos : 0 < e.a) (hct : 0 < d.ct.toNat) :
    Follows { d with a := d.a <<< 1, c := d.c <<< 1, ct := d.ct - 1 } e.double s tail w (v + 1) := by
  have hlow := (h.bounds hleads hvalid).1
  have hdigits := h.digits_eq
  have hc := h.c_eq
  have ha_eq := h.a_eq
  have hct_sub : (d.ct - 1).toNat = d.ct.toNat - 1 :=
    UInt32.toNat_sub_of_le _ _ (UInt32.le_iff_toNat_le.mpr hct)
  refine ⟨h.data_eq, h.suffix, ?_, ?_, ?_, ?_⟩
  · rw [hvalid.scale_double ha.le hpos]
    omega
  · dsimp only
    rw [toNat_shiftLeft_one (by omega), hvalid.base_double ha.le hpos, a_double, pow_succ,
      ← Nat.mul_assoc]
    omega
  · rw [toNat_shiftLeft_one (by omega), a_double, ha_eq]
  · rw [hct_sub]
    cases h.place with
    | reading hv hposition => exact .reading (by omega) hposition
    | last hw hposition => exact .last hw hposition
    | ended hw hposition hhead => exact .ended hw hposition hhead

theorem Follows.double (h : Follows d e s tail w v) (hleads : Leads e s) (hvalid : e.Valid)
    (ha : e.a < 0x8000) (hpos : 0 < e.a) : ∃ w v, Follows d.double e.double s tail w v := by
  unfold ArithmeticDecoder.double
  dsimp only
  split
  · rename_i hct
    obtain ⟨w, v, htaken, hct⟩ := h.takeByte hleads hvalid hct
    exact ⟨w, v + 1, htaken.shift hleads hvalid ha hpos hct⟩
  · rename_i hct
    refine ⟨w, v + 1, h.shift hleads hvalid ha hpos (Nat.pos_of_ne_zero fun hzero => hct ?_)⟩
    exact UInt32.toNat_inj.mp hzero

/-- Both coders double equally often. -/
theorem Follows.renormalize (fuel : Nat) (h : Follows d e s tail w v)
    (hleads : Leads (e.renormalize fuel) s) (hvalid : e.Valid) (ha : e.a < 0x8000)
    (hpos : 0 < e.a) : ∃ w v, Follows (d.renormalize fuel) (e.renormalize fuel) s tail w v := by
  induction fuel generalizing d e w v with
  | zero => exact ⟨w, v, h⟩
  | succ fuel ih =>
    obtain ⟨w, v, hdouble⟩ := h.double (hleads.of_renormalize hvalid ha.le hpos) hvalid ha hpos
    have ha_eq := hdouble.a_eq
    have ha_double : e.double.a = e.a * 2 := a_double
    rw [ArithmeticEncoder.renormalize] at hleads ⊢
    rw [ArithmeticDecoder.renormalize]
    by_cases hle : 0x8000 ≤ e.double.a
    · rw [if_pos hle, if_pos ((and_half_ne_zero (by omega)).mpr (by omega))]
      exact ⟨w, v, hdouble⟩
    · rw [if_neg hle] at hleads ⊢
      rw [if_neg fun hne => hle (ha_eq ▸ (and_half_ne_zero (by omega)).mp hne)]
      exact ih hdouble hleads (hvalid.double ha.le hpos) (by omega) (by omega)

/-! ## Selecting a part of the interval -/

variable {size : UInt32}

theorem Follows.toNat_rest (h : Follows d e s tail w v) (hsize : size.toNat ≤ e.a) :
    (d.a - size).toNat = e.a - size.toNat := by
  rw [← h.a_eq] at hsize ⊢
  exact UInt32.toNat_sub_of_le _ _ (UInt32.le_iff_toNat_le.mpr hsize)

theorem shiftRight_lt_iff {c rest : UInt32} :
    c >>> 16 < rest ↔ c.toNat < rest.toNat * 2 ^ 16 := by
  rw [UInt32.lt_iff_toNat_lt, UInt32.toNat_shiftRight, show (16 : UInt32).toNat % 32 = 16 from rfl,
    Nat.shiftRight_eq_div_pow, Nat.div_lt_iff_lt_mul (by decide)]

theorem toNat_shiftLeft_sixteen {x : UInt32} (h : x.toNat < 0x10000) :
    (x <<< 16).toNat = x.toNat * 2 ^ 16 := by
  rw [UInt32.toNat_shiftLeft, show (16 : UInt32).toNat % 32 = 16 from rfl, Nat.shiftLeft_eq]
  exact Nat.mod_eq_of_lt (by omega)

/-- A code string in the upper part is what the decoder sees in it. -/
theorem Follows.takeUpper (h : Follows d e s tail w v) (hsize : size.toNat ≤ e.a)
    (hready : e.Ready) (hleads : Leads (e.takeUpper size.toNat) s) :
    d.c >>> 16 < d.a - size ∧
      Follows { d with a := d.a - size } (e.takeUpper size.toNat) s tail w v := by
  have hrest := h.toNat_rest hsize
  have hc := h.c_eq
  have hbase : (e.takeUpper size.toNat).base = e.base + size.toNat := (Nat.add_assoc _ _ _).symm
  have ha_upper : (e.takeUpper size.toNat).a = e.a - size.toNat := rfl
  have hlow := (hleads.bounds (hready.valid.takeUpper hsize) h.suffix h.digits_eq
    h.place.le_or_eq).1
  rw [hbase] at hlow
  constructor
  · rw [shiftRight_lt_iff, hrest]
    omega
  · refine ⟨h.data_eq, h.suffix, h.digits_eq, ?_, hrest, h.place⟩
    rw [hbase, ha_upper, Nat.add_assoc, Nat.add_sub_cancel' hsize]
    exact hc

/-- A code string in the lower part is what the decoder sees in it. -/
theorem Follows.takeLower (h : Follows d e s tail w v) (hsize : size.toNat ≤ e.a)
    (hready : e.Ready) (hleads : Leads (e.takeLower size.toNat) s) :
    ¬ d.c >>> 16 < d.a - size ∧
      Follows { d with a := size, c := d.c - (d.a - size) <<< 16 } (e.takeLower size.toNat)
        s tail w v := by
  have hrest := h.toNat_rest hsize
  have hc := h.c_eq
  have ha := hready.a_lt
  have hbase : (e.takeLower size.toNat).base = e.base := rfl
  have ha_lower : (e.takeLower size.toNat).a = size.toNat := rfl
  have hhigh := (hleads.bounds (hready.valid.takeLower hsize) h.suffix h.digits_eq
    h.place.le_or_eq).2
  rw [hbase, ha_lower] at hhigh
  have hle : (e.a - size.toNat) * 2 ^ 16 ≤ d.c.toNat := by
    rw [Nat.sub_mul]
    omega
  have hshift : ((d.a - size) <<< 16).toNat = (e.a - size.toNat) * 2 ^ 16 := by
    rw [toNat_shiftLeft_sixteen (by omega), hrest]
  constructor
  · rw [shiftRight_lt_iff, hrest]
    exact Nat.not_lt.mpr hle
  · refine ⟨h.data_eq, h.suffix, h.digits_eq, ?_, rfl, h.place⟩
    have hshift_le : (d.a - size) <<< 16 ≤ d.c := by
      rw [UInt32.le_iff_toNat_le, hshift]
      exact hle
    rw [hbase, ha_lower, UInt32.toNat_sub_of_le _ _ hshift_le, hshift]
    omega

/-! ## Decoding a bit -/

variable {cx : BitContext} {bit : Bool}

/-- The decoder finds the part of the interval that a bit has selected. -/
theorem Follows.select (h : Follows d e s tail w v) (hready : e.Ready) (hcx : cx.index < 47)
    (hleads : Leads (e.part cx bit) s) :
    (d.select cx.estimate.size).1 = (bit == cx.likely) ∧
      Follows (d.select cx.estimate.size).2 (e.part cx bit) s tail w v := by
  have hsize := (estimate_spec hcx).2.1
  have hle := hready.le_a
  have hsize_le : cx.estimate.size.toNat ≤ e.a := by omega
  have hless : (d.a - cx.estimate.size < cx.estimate.size) ↔
      e.a - cx.estimate.size.toNat < cx.estimate.size.toNat := by
    rw [UInt32.lt_iff_toNat_lt, h.toNat_rest hsize_le]
  unfold part at hleads ⊢
  unfold ArithmeticDecoder.select
  dsimp only at hleads ⊢
  split at hleads
  · rename_i hlower
    obtain ⟨hnot, hfollows⟩ := h.takeLower hsize_le hready hleads
    rw [if_neg hnot, if_pos hlower]
    refine ⟨?_, hfollows⟩
    rw [beq_iff_eq] at hlower
    rw [hlower, decide_eq_decide]
    exact hless
  · rename_i hupper
    obtain ⟨hlt, hfollows⟩ := h.takeUpper hsize_le hready hleads
    rw [if_pos hlt, if_neg hupper]
    refine ⟨?_, hfollows⟩
    rw [beq_iff_eq, ← ne_eq, Bool.eq_not.symm] at hupper
    rw [hupper, decide_eq_decide.mpr hless]

/-- Whether the decoder keeps its context and its scale is decided as in the encoder. -/
theorem Follows.keeps_iff (h : Follows d e s tail w v) (hready : e.Ready) (hcx : cx.index < 47)
    (hleads : Leads (e.part cx bit) s) :
    (d.c >>> 16 < d.a - cx.estimate.size ∧ d.a - cx.estimate.size &&& 0x8000 ≠ 0) ↔
      e.Keeps cx bit := by
  have hsize := (estimate_spec hcx).2.1
  have hle := hready.le_a
  have hlt := hready.a_lt
  have hsize_le : cx.estimate.size.toNat ≤ e.a := by omega
  have hrest := h.toNat_rest hsize_le
  rw [and_half_ne_zero (by omega), hrest]
  refine and_congr_left fun hlarge => ?_
  have hnot : decide (e.a - cx.estimate.size.toNat < cx.estimate.size.toNat) = false :=
    decide_eq_false (by omega)
  unfold part at hleads
  dsimp only at hleads
  rw [hnot] at hleads
  by_cases hbit : bit = cx.likely
  · rw [beq_iff_eq.mpr hbit, if_neg (by decide)] at hleads
    exact iff_of_true (h.takeUpper hsize_le hready hleads).1 hbit
  · rw [beq_eq_false_iff_ne.mpr hbit, if_pos (by decide)] at hleads
    exact iff_of_false (h.takeLower hsize_le hready hleads).1 hbit

/-- Decoding a bit gives the bit that was encoded, and the coders go on alike. -/
theorem Follows.decode (h : Follows d e s tail w v) (hready : e.Ready) (hcx : cx.index < 47)
    (hleads : Leads (e.encode cx bit).2 s) :
    ∃ d' w v, d.decode cx = (bit, (e.encode cx bit).1, d') ∧
      Follows d' (e.encode cx bit).2 s tail w v := by
  have hpart := hleads.of_encode hready hcx
  have hkeeps := h.keeps_iff hready hcx hpart
  obtain ⟨hlikely, hselect⟩ := h.select hready hcx hpart
  unfold ArithmeticDecoder.decode
  dsimp only
  by_cases hk : e.Keeps cx bit
  · obtain ⟨hencode, htake⟩ := encode_of_keeps hcx hk
    have hsize := (estimate_spec hcx).2.1
    have hle := hready.le_a
    rw [htake] at hpart
    rw [if_pos (hkeeps.mpr hk), hencode, htake, hk.1]
    exact ⟨_, w, v, rfl, (h.takeUpper (by omega) hready hpart).2⟩
  · rw [encode_of_not_keeps hk] at hleads ⊢
    obtain ⟨hvalid, hpos, hlt⟩ := hready.part hcx bit
    obtain ⟨w, v, hnext⟩ :=
      hselect.renormalize ArithmeticDecoder.maxDoublings hleads hvalid (hlt hk) hpos
    rw [if_neg fun hc => hk (hkeeps.mp hc), hlikely]
    refine ⟨_, w, v, ?_, hnext⟩
    by_cases hbit : bit = cx.likely
    · simp [hbit]
    · simp [Bool.eq_not.mpr hbit]

/-- Decoding a list of bits. -/
theorem Follows.decodeAll {κ : Type} [DecidableEq κ] {contexts : κ → BitContext}
    {decisions : List (κ × Bool)} (h : Follows d e s tail w v) (hready : e.Ready)
    (hcontexts : ∀ k, (contexts k).index < 47)
    (hleads : Leads (encodeAll e contexts decisions) s) :
    decodeAll d contexts (decisions.map Prod.fst) = decisions.map Prod.snd := by
  induction decisions generalizing d e w v contexts with
  | nil => rfl
  | cons decision rest ih =>
    obtain ⟨k, bit⟩ := decision
    obtain ⟨hnext, hindex⟩ := hready.encode (hcontexts k) bit
    have hupdate := update_index_lt hcontexts hindex (k := k)
    obtain ⟨d', w, v, hdecode, hfollows⟩ :=
      h.decode hready (hcontexts k) (hleads.of_encodeAll hnext hupdate)
    rw [List.map_cons, List.map_cons, Folio.Bilevel.decodeAll, hdecode]
    exact congrArg (bit :: ·) (ih hfollows hnext hupdate hleads)

/-! ## The start and the end of the data -/

theorem length_putByte : e.putByte.written.length = e.written.length + 1 := by
  unfold putByte
  split
  · rfl
  · split
    · rfl
    · dsimp only
      split <;> rfl

theorem three_le_length_flushed : 3 ≤ e.flushed.length := by
  rw [flushed, flushByte, length_putByte]
  refine Nat.succ_le_succ ?_
  change 2 ≤ e.setBits.flushByte.written.length
  rw [flushByte, length_putByte]
  exact Nat.succ_le_succ (Nat.succ_pos _)

/-- The byte that is no part of the data takes no carry. -/
theorem zero_suffix_of_leads (h : Leads .start s) : [0] <:+ s := by
  rcases h.completes with h | ⟨b, earlier, hw, -, hs⟩
  · exact h
  · obtain ⟨rfl, rfl⟩ := List.cons.inj hw
    have hlow : codeLow [1] < ArithmeticEncoder.start.high :=
      (codeLow_le_of_suffix hs).trans_lt ((codeLow_lt_codeHigh s).trans_le h.le_high)
    have hhigh : ArithmeticEncoder.start.high = frac (1 * 2 ^ 15) (8 + 15) := rfl
    rw [hhigh, frac_mul_two_pow] at hlow
    exact absurd (frac_lt_frac.mp hlow) (Nat.lt_irrefl 1)

theorem exists_first_bytes (h : Leads .start s) (hlen : 3 ≤ s.length) :
    ∃ b₀ b₁, [b₁, b₀, 0] <:+ s := by
  rcases suffix_eq_or_cons (zero_suffix_of_leads h) with rfl | ⟨b₀, hs⟩
  · exact absurd hlen (by decide)
  · rcases suffix_eq_or_cons hs with rfl | ⟨b₁, hs⟩
    · exact absurd hlen (Nat.lt_irrefl 2)
    · exact ⟨b₀, b₁, hs⟩

theorem tail_codeStream (tail : Bytes) {b₀ b₁ : UInt8} (hs : [b₁, b₀, 0] <:+ s) :
    ∃ rest, (codeStream s tail).tail = b₀ :: b₁ :: rest := by
  obtain ⟨later, rfl⟩ := hs
  exact ⟨later.reverse ++ marker (later ++ [b₁, b₀, 0]) ++ tail, by simp [codeStream]⟩

theorem toNat_complement (b : UInt8) : (b ^^^ 0xFF).toNat = 255 - b.toNat := by
  rw [show (0xFF : UInt8) = -1 from rfl, UInt8.xor_neg_one, UInt8.toNat_not]
  rfl

theorem toNat_shiftLeft_seven {x : UInt32} (h : x.toNat < 2 ^ 25) :
    (x <<< 7).toNat = x.toNat * 2 ^ 7 := by
  rw [UInt32.toNat_shiftLeft, show (7 : UInt32).toNat % 32 = 7 from rfl, Nat.shiftLeft_eq]
  exact Nat.mod_eq_of_lt (by omega)

/-- The decoder that has taken the first byte of the data. -/
def firstTaken (data : Bytes) (b₀ : UInt8) : ArithmeticDecoder :=
  ⟨data.toArray, 0, (b₀ ^^^ 0xFF).toUInt32 <<< 16, 0, 0⟩

theorem start_eq (b₀ b₁ : UInt8) (rest : Bytes) :
    let d := (firstTaken (b₀ :: b₁ :: rest) b₀).takeByte
    ArithmeticDecoder.start (b₀ :: b₁ :: rest) =
      { d with c := d.c <<< 7, ct := d.ct - 7, a := 0x8000 } := rfl

theorem toNat_c_firstTaken (data : Bytes) (b₀ : UInt8) :
    (firstTaken data b₀).c.toNat = (255 - b₀.toNat) * 2 ^ 16 := by
  have hc : (b₀ ^^^ 0xFF).toUInt32.toNat = 255 - b₀.toNat := by
    rw [UInt8.toNat_toUInt32, toNat_complement]
  rw [firstTaken, toNat_shiftLeft_sixteen (by omega), hc]

/-- The start of data whose first byte leaves only seven digits for the second one. -/
theorem follows_start_seven {b₁ : UInt8} {rest : Bytes} (h : Leads .start s)
    (hs : [b₁, 0xFF, 0] <:+ s) (hdata : (codeStream s tail).tail = 0xFF :: b₁ :: rest) :
    Follows (.start (0xFF :: b₁ :: rest)) .start s tail [b₁, 0xFF, 0] 16 := by
  have hvalue : codeValue [b₁, 0xFF, 0] = 255 * 2 ^ 7 + b₁.toNat := rfl
  have hbase : ArithmeticEncoder.start.base = 0 := rfl
  have ha : ArithmeticEncoder.start.a = 0x8000 := rfl
  have hbounds := (h.bounds valid_start hs (v := 16) rfl (.inl (Nat.le_refl _))).2
  rw [hvalue, hbase, ha] at hbounds
  have hb : ¬ b₁ > 0x8F := by
    rw [gt_iff_lt, UInt8.lt_iff_toNat_lt, show (0x8F : UInt8).toNat = 143 from rfl]
    omega
  have hc := toNat_c_firstTaken (0xFF :: b₁ :: rest) 0xFF
  rw [show (0xFF : UInt8).toNat = 255 from rfl] at hc
  have hsum := toNat_add_seven (c := (firstTaken (0xFF :: b₁ :: rest) 0xFF).c) (b := b₁)
    (n := (127 - b₁.toNat) * 2 ^ 9) (by omega) (by omega)
  have hlast : (firstTaken (0xFF :: b₁ :: rest) 0xFF).byte 0 = 0xFF := rfl
  have hnext : (firstTaken (0xFF :: b₁ :: rest) 0xFF).byte 1 = b₁ := rfl
  rw [start_eq, takeByte_seven hlast (hnext ▸ hb), hnext]
  refine ⟨hdata.symm, hs, rfl, ?_, rfl,
    .reading (show 16 + (7 - 7 : UInt32).toNat = 16 from rfl) rfl⟩
  dsimp only
  rw [toNat_shiftLeft_seven (hsum.trans_lt (by omega)), hsum, hvalue, hbase, ha]
  omega

/-- The start of other data. -/
theorem follows_start_eight {b₀ b₁ : UInt8} {rest : Bytes} (hff : b₀ ≠ 0xFF)
    (hs : [b₁, b₀, 0] <:+ s) (hdata : (codeStream s tail).tail = b₀ :: b₁ :: rest) :
    Follows (.start (b₀ :: b₁ :: rest)) .start s tail [b₁, b₀, 0] 15 := by
  have hb₀ := b₀.toNat_lt
  have hb₁ := b₁.toNat_lt
  have hvalue : codeValue [b₁, b₀, 0] = b₀.toNat * 2 ^ 8 + b₁.toNat := by
    rw [codeValue, digitsAfter_of_ne hff, codeValue]
    simp [codeValue]
  have hdigits : codeDigits [b₁, b₀, 0] = 24 := by
    rw [codeDigits, digitsAfter_of_ne hff]
    rfl
  have hbase : ArithmeticEncoder.start.base = 0 := rfl
  have ha : ArithmeticEncoder.start.a = 0x8000 := rfl
  have hc := toNat_c_firstTaken (b₀ :: b₁ :: rest) b₀
  have hsum := toNat_add_eight (c := (firstTaken (b₀ :: b₁ :: rest) b₀).c) (b := b₁)
    (n := (65535 - (b₀.toNat * 2 ^ 8 + b₁.toNat)) * 2 ^ 8) (by omega) (by omega)
  have hlast : (firstTaken (b₀ :: b₁ :: rest) b₀).byte 0 = b₀ := rfl
  have hnext : (firstTaken (b₀ :: b₁ :: rest) b₀).byte 1 = b₁ := rfl
  rw [start_eq, takeByte_eight (hlast ▸ hff), hnext]
  refine ⟨hdata.symm, hs, by rw [hdigits]; rfl, ?_, rfl,
    .reading (show 15 + (8 - 7 : UInt32).toNat = 16 from rfl) rfl⟩
  dsimp only
  rw [toNat_shiftLeft_seven (hsum.trans_lt (by omega)), hsum, hvalue, hbase, ha]
  omega

/-- The decoder at the start of the data. -/
theorem follows_start (tail : Bytes) (h : Leads .start s) (hlen : 3 ≤ s.length) :
    ∃ w v, Follows (.start (codeStream s tail).tail) .start s tail w v := by
  obtain ⟨b₀, b₁, hs⟩ := exists_first_bytes h hlen
  obtain ⟨rest, hdata⟩ := tail_codeStream tail hs
  by_cases hff : b₀ = 0xFF
  · subst hff
    exact ⟨_, _, hdata ▸ follows_start_seven h hs hdata⟩
  · exact ⟨_, _, hdata ▸ follows_start_eight hff hs hdata⟩

/-- The data end in a marker. -/
theorem exists_finish_eq (e : ArithmeticEncoder) : ∃ data, e.finish = data ++ [0xFF, 0xAC] := by
  have hlen := three_le_length_flushed (e := e)
  rw [finish, marker]
  generalize e.flushed = s at hlen
  split
  · rename_i hhead
    obtain ⟨earlier, rfl⟩ : ∃ earlier, s = 0xFF :: earlier := List.head?_eq_some_iff.mp hhead
    have hne : earlier.reverse ≠ [] := by
      intro hnil
      rw [List.reverse_eq_nil_iff.mp hnil] at hlen
      exact absurd hlen (by decide)
    exact ⟨earlier.reverse.tail, by rw [List.reverse_cons, List.tail_append_of_ne_nil hne]; simp⟩
  · exact ⟨s.reverse.tail, rfl⟩

theorem finish_append (hlen : 3 ≤ e.flushed.length) :
    e.finish ++ tail = (codeStream e.flushed tail).tail := by
  have hne : e.flushed.reverse ≠ [] := by
    rw [ne_eq, List.reverse_eq_nil_iff]
    intro hnil
    rw [hnil] at hlen
    exact absurd hlen (Nat.not_succ_le_zero 2)
  rw [finish, codeStream, List.append_assoc, List.append_assoc, List.tail_append_of_ne_nil hne]

/-- A decoder reads back the bits that were encoded, from data that end in a marker and whatever
follows it. -/
theorem decodeAll_finish {κ : Type} [DecidableEq κ] (decisions : List (κ × Bool)) (tail : Bytes) :
    let data := (encodeAll .start (fun _ => {}) decisions).finish
    (∃ bytes, data = bytes ++ [0xFF, 0xAC]) ∧
      decodeAll (.start (data ++ tail)) (fun _ => {}) (decisions.map Prod.fst) =
        decisions.map Prod.snd := by
  have hcontexts : ∀ k : κ, ((fun _ => {} : κ → BitContext) k).index < 47 := fun _ => Nat.succ_pos _
  have hready : (encodeAll .start (fun _ => {}) decisions).Ready :=
    ready_start.encodeAll hcontexts
  have hleads := leads_flushed hready
  have hlen := three_le_length_flushed (e := encodeAll .start (fun _ => {}) decisions)
  refine ⟨exists_finish_eq _, ?_⟩
  obtain ⟨w, v, hstart⟩ :=
    follows_start tail (hleads.of_encodeAll ready_start hcontexts) hlen
  rw [finish_append hlen]
  exact hstart.decodeAll ready_start hcontexts hleads

-- The test sequence of the standard, in one context. Its data hold a carry, stuffed bytes and a last
-- byte `FF`.
example :
    let bytes := [
      0x00, 0x02, 0x00, 0x51, 0x00, 0x00, 0x00, 0xC0, 0x03, 0x52, 0x87, 0x2A, 0xAA, 0xAA, 0xAA, 0xAA,
      0x82, 0xC0, 0x20, 0x00, 0xFC, 0xD7, 0x9E, 0xF6, 0xBF, 0x7F, 0xED, 0x90, 0x4F, 0x46, 0xA3, 0xBF]
    let bits := bytes.flatMap fun b => (List.range 8).map fun i => ((), b.testBit (7 - i))
    (encodeAll .start (fun _ => {}) bits).finish =
      [0x84, 0xC7, 0x3B, 0xFC, 0xE1, 0xA1, 0x43, 0x04, 0x02, 0x20, 0x00, 0x00, 0x41, 0x0D, 0xBB,
        0x86, 0xF4, 0x31, 0x7F, 0xFF, 0x88, 0xFF, 0x37, 0x47, 0x1A, 0xDB, 0x6A, 0xDF, 0xFF, 0xAC] := by
  decide +kernel

end Folio.Bilevel
