import Folio.Proofs.Bilevel.ArithmeticEncoder

/-!
# The interval that a code string lies in

The finished code string lies in the interval of the encoder at every time. This is shown backwards:
each step leaves the interval within the one before, and the string lies in the interval that is left
at the end.

A decoder has read more bytes than the encoder has written at that time, but not all of them. So the
bytes to come matter too: none of them can be so small that the string up to it, continued with ones,
falls below the interval, and none after `FF` can be taken for a marker.
-/

namespace Folio.Bilevel

/-- Whether a code string goes on from `w`, the last byte of which may still take a carry. -/
def Completes (w s : Bytes) : Prop :=
  w <:+ s ∨ ∃ b earlier, w = b :: earlier ∧ b ≠ 0xFF ∧ (b + 1) :: earlier <:+ s

theorem Completes.suffix_tail {b : UInt8} {w s : Bytes} (h : Completes (b :: w) s) : w <:+ s := by
  rcases h with h | ⟨c, earlier, heq, -, h⟩
  · exact (List.suffix_cons b w).trans h
  · obtain ⟨-, rfl⟩ := List.cons.inj heq
    exact (List.suffix_cons (c + 1) w).trans h

/-- The part of the code string that takes the place of `w`. -/
theorem Completes.exists_suffix {w s : Bytes} (h : Completes w s) :
    ∃ w', w' <:+ s ∧ w'.length = w.length ∧ codeDigits w' = codeDigits w ∧
      codeValue w ≤ codeValue w' := by
  rcases h with h | ⟨b, earlier, rfl, hb, h⟩
  · exact ⟨w, h, rfl, rfl, Nat.le_refl _⟩
  · exact ⟨_, h, rfl, rfl, ArithmeticEncoder.codeValue_carry hb ▸ Nat.le_succ _⟩

theorem eq_of_suffix_of_length_eq {w w' s : Bytes} (h : w <:+ s) (h' : w' <:+ s)
    (hlen : w.length = w'.length) : w = w' :=
  (List.suffix_of_suffix_length_le h h' hlen.le).eq_of_length hlen

namespace ArithmeticEncoder

/-- Whether the finished code string `s`, latest byte first, can come out of an encoder from some
time on. -/
structure Leads (e : ArithmeticEncoder) (s : Bytes) : Prop where
  completes : Completes e.written s
  low_lt : e.low < codeHigh s
  le_high : codeHigh s ≤ e.high
  /-- The bytes that are not written yet do not lead below the interval. -/
  ahead : ∀ w, w <:+ s → e.written.length < w.length → e.low < codeHigh w
  /-- The bytes after `FF` that are not written yet are at most `8F`. -/
  stuffed : ∀ b w, b :: 0xFF :: w <:+ s → e.written.length < w.length + 1 → b.toNat < 0x90

variable {e e' : ArithmeticEncoder} {s : Bytes}

/-- Narrowing the interval. -/
theorem Leads.of_within (h : Leads e' s) (hwritten : e'.written = e.written)
    (hlow : e.low ≤ e'.low) (hhigh : e'.high ≤ e.high) : Leads e s where
  completes := hwritten ▸ h.completes
  low_lt := hlow.trans_lt h.low_lt
  le_high := h.le_high.trans hhigh
  ahead w hw hlen := hlow.trans_lt (h.ahead w hw (hwritten ▸ hlen))
  stuffed b w hw hlen := h.stuffed b w hw (hwritten ▸ hlen)

/-- The lower end of the interval lies less than a unit of the last byte above the bytes written. -/
theorem low_lt_of_c_lt (hc : e.c < 2 ^ (27 - e.ct)) :
    e.low < frac (codeValue e.written + 1) (codeDigits e.written) := by
  rw [← frac_mul_two_pow _ _ (27 - e.ct)]
  refine frac_lt_frac.mpr ?_
  rw [base, Nat.add_mul, Nat.one_mul]
  omega

/-- Writing a byte. Of the byte itself it is known that the rest of `c` lies below its unit, and of
the one after it that it does not lead above the interval. -/
theorem Leads.of_puts (h : Leads e' s) (hputs : Puts e e')
    (hroom : s.length = e'.written.length ∨ e'.c + e'.a ≤ 9 * 2 ^ (24 - e'.ct)) : Leads e s := by
  have hlow : e.low = e'.low := by rw [low, low, hputs.base_eq, hputs.scale_eq]
  have hhigh : e'.high = e.high := by
    rw [high, high, hputs.base_eq, hputs.scale_eq, hputs.a_eq]
  have hlen : e'.written.length = e.written.length + 1 := by
    rcases hputs.written_eq with heq | ⟨-, heq⟩ <;> simp [written, heq]
  obtain ⟨w', hw', hlen', hdigits, hvalue⟩ := h.completes.exists_suffix
  refine ⟨?_, hlow ▸ h.low_lt, hhigh ▸ h.le_high, fun w hw hlt => ?_, fun b w hw hlt => ?_⟩
  · have htail := h.completes.suffix_tail
    rcases hputs.written_eq with heq | ⟨hlast, heq⟩
    · exact .inl (heq ▸ htail)
    · exact .inr ⟨e.last, e.earlier, rfl, hlast, heq ▸ htail⟩
  · rcases Nat.eq_or_lt_of_le (Nat.succ_le_of_lt hlt) with heq | hlt
    · obtain rfl := eq_of_suffix_of_length_eq hw hw' (by omega)
      rw [hlow]
      refine (low_lt_of_c_lt hputs.c_lt).trans_le ?_
      rw [codeHigh, hdigits]
      exact frac_le_frac.mpr (by omega)
    · exact hlow ▸ h.ahead w hw (by omega)
  · rcases Nat.eq_or_lt_of_le (Nat.succ_le_of_lt hlt) with heq | hlt
    · rcases hroom with hend | hroom
      · have := hw.length_le
        simp only [List.length_cons] at this
        omega
      · obtain rfl := eq_of_suffix_of_length_eq ((List.suffix_cons b _).trans hw) hw'
          (by simp only [List.length_cons]; omega)
        have hlt : codeLow (b :: 0xFF :: w) < e'.high :=
          (codeLow_le_of_suffix hw).trans_lt ((codeLow_lt_codeHigh s).trans_le h.le_high)
        have hseven : digitsAfter (0xFF :: w) = 7 := rfl
        rw [codeLow, high, codeDigits, codeValue, hseven, hdigits, scale, base] at hlt
        rcases hputs.ct_eq with hct | hct <;> rw [hct] at hlt hroom
        · rw [← frac_mul_two_pow _ _ 13, Nat.add_assoc, frac_lt_frac] at hlt
          omega
        · rw [← frac_mul_two_pow _ _ 12, Nat.add_assoc, frac_lt_frac] at hlt
          omega
    · exact h.stuffed b w hw (by omega)

theorem low_doubled (hpos : 0 < e.ct) (hle : e.ct ≤ 27) : e.doubled.low = e.low := by
  rw [low, low, base_doubled hpos hle, scale_doubled hpos hle, ← frac_mul_two_pow e.base _ 1,
    pow_one]

theorem high_doubled (hpos : 0 < e.ct) (hle : e.ct ≤ 27) : e.doubled.high = e.high := by
  rw [high, high, base_doubled hpos hle, scale_doubled hpos hle,
    ← frac_mul_two_pow (e.base + e.a) _ 1, pow_one, Nat.add_mul]
  rfl

theorem Leads.of_double (hvalid : e.Valid) (ha : e.a ≤ 0x8000) (hpos : 0 < e.a)
    (h : Leads e.double s) : Leads e s := by
  have hct_pos := hvalid.ct_pos
  have hct_le := hvalid.ct_le
  have hdoubled : Leads e.doubled s := by
    by_cases hct : e.doubled.ct = 0
    · exact h.of_puts (hvalid.double_puts ha hpos hct) (.inr (hvalid.double ha hpos).room)
    · exact double_of_ne hct ▸ h
  exact hdoubled.of_within rfl (low_doubled hct_pos (by omega)).ge
    (high_doubled hct_pos (by omega)).le

theorem a_double : e.double.a = e.a * 2 := by
  unfold double
  dsimp only
  split
  · simp only [putByte, putSeven, putEight]
    split
    · rfl
    · split
      · rfl
      · split <;> rfl
  · rfl

theorem Valid.renormalize {fuel : Nat} (h : e.Valid) (ha : e.a ≤ 0x8000) (hpos : 0 < e.a) :
    (e.renormalize fuel).Valid := by
  induction fuel generalizing e with
  | zero => exact h
  | succ fuel ih =>
    rw [ArithmeticEncoder.renormalize]
    have hdouble := h.double ha hpos
    split
    · exact hdouble
    · rename_i hlt
      exact ih hdouble (by omega) (by rw [a_double]; omega)

theorem Leads.of_renormalize {fuel : Nat} (hvalid : e.Valid) (ha : e.a ≤ 0x8000) (hpos : 0 < e.a)
    (h : Leads (e.renormalize fuel) s) : Leads e s := by
  induction fuel generalizing e with
  | zero => exact h
  | succ fuel ih =>
    rw [ArithmeticEncoder.renormalize] at h
    refine .of_double hvalid ha hpos ?_
    split at h
    · exact h
    · rename_i hlt
      exact ih (hvalid.double ha hpos) (by omega) (by rw [a_double]; omega) h

/-- Enough doublings bring an interval to its size. -/
theorem a_renormalize (fuel : Nat) (ha : e.a < 0x8000) (hfuel : 0x8000 ≤ e.a * 2 ^ fuel) :
    0x8000 ≤ (e.renormalize fuel).a ∧ (e.renormalize fuel).a < 0x10000 := by
  induction fuel generalizing e with
  | zero => omega
  | succ fuel ih =>
    rw [ArithmeticEncoder.renormalize]
    split
    · rename_i hle
      rw [a_double] at hle ⊢
      omega
    · rename_i hlt
      refine ih (by omega) ?_
      rw [a_double, Nat.mul_assoc, ← pow_succ']
      exact hfuel

/-! ## Steps and runs -/

/-- What the table of probabilities guarantees: the smaller part is never empty, and both parts of
an interval of at least half of the full size are smaller than the full size. -/
theorem estimate_spec {cx : BitContext} (h : cx.index < 47) :
    0 < cx.estimate.size.toNat ∧ cx.estimate.size.toNat ≤ 0x5601 ∧
      cx.seeLikely.index < 47 ∧ cx.seeUnlikely.index < 47 := by
  have htable : ∀ i < 47, 0 < (estimates.getD i ⟨0, 0, 0, false⟩).size.toNat ∧
      (estimates.getD i ⟨0, 0, 0, false⟩).size.toNat ≤ 0x5601 ∧
      (estimates.getD i ⟨0, 0, 0, false⟩).afterLikely < 47 ∧
      (estimates.getD i ⟨0, 0, 0, false⟩).afterUnlikely < 47 := by decide
  exact htable _ h

/-- The bounds of the registers between bits. -/
structure Ready (e : ArithmeticEncoder) : Prop where
  valid : e.Valid
  le_a : 0x8000 ≤ e.a
  a_lt : e.a < 0x10000

theorem ready_start : start.Ready := ⟨valid_start, by decide, by decide⟩

variable {size : Nat}

theorem Valid.takeLower (h : e.Valid) (hsize : size ≤ e.a) : (e.takeLower size).Valid where
  ct_pos := h.ct_pos
  ct_le := h.ct_le
  room := (Nat.add_le_add_left hsize _).trans h.room
  a_le := hsize.trans h.a_le

theorem Valid.takeUpper (h : e.Valid) (hsize : size ≤ e.a) : (e.takeUpper size).Valid where
  ct_pos := h.ct_pos
  ct_le := h.ct_le
  room := by
    have hroom := h.room
    simp only [ArithmeticEncoder.takeUpper]
    omega
  a_le := (Nat.sub_le _ _).trans h.a_le

theorem Leads.of_takeLower (hsize : size ≤ e.a) (h : Leads (e.takeLower size) s) : Leads e s :=
  h.of_within rfl (le_refl _) (frac_le_frac.mpr (Nat.add_le_add_left hsize _))

theorem Leads.of_takeUpper (hsize : size ≤ e.a) (h : Leads (e.takeUpper size) s) : Leads e s := by
  have hbase : (e.takeUpper size).base = e.base + size := (Nat.add_assoc _ _ _).symm
  refine h.of_within rfl (frac_le_frac.mpr ?_) (frac_le_frac.mpr ?_)
  · rw [hbase]
    exact Nat.le_add_right _ _
  · rw [hbase]
    simp only [takeUpper]
    omega

/-- The part of the interval that a bit selects. -/
def part (e : ArithmeticEncoder) (cx : BitContext) (bit : Bool) : ArithmeticEncoder :=
  let size := cx.estimate.size.toNat
  if (bit == cx.likely) == decide (e.a - size < size) then e.takeLower size else e.takeUpper size

/-- Whether a bit leaves an interval of at least half of the full size, so that neither the context
nor the scale changes. -/
def Keeps (e : ArithmeticEncoder) (cx : BitContext) (bit : Bool) : Prop :=
  bit = cx.likely ∧ 0x8000 ≤ e.a - cx.estimate.size.toNat

instance (e : ArithmeticEncoder) (cx : BitContext) (bit : Bool) : Decidable (e.Keeps cx bit) :=
  inferInstanceAs (Decidable (_ ∧ _))

variable {cx : BitContext} {bit : Bool}

theorem encode_of_keeps (hcx : cx.index < 47) (h : e.Keeps cx bit) :
    e.encode cx bit = (cx, e.part cx bit) ∧ e.part cx bit = e.takeUpper cx.estimate.size.toNat := by
  obtain ⟨rfl, hrest⟩ := h
  have hsize := (estimate_spec hcx).2.1
  have hnot : ¬ e.a - cx.estimate.size.toNat < cx.estimate.size.toNat := by omega
  have hpart : e.part cx cx.likely = e.takeUpper cx.estimate.size.toNat := by
    simp [part, hnot]
  rw [hpart]
  exact ⟨by simp [encode, hrest], rfl⟩

theorem encode_of_not_keeps (h : ¬ e.Keeps cx bit) :
    e.encode cx bit =
      (if bit = cx.likely then cx.seeLikely else cx.seeUnlikely,
        (e.part cx bit).renormalize ArithmeticDecoder.maxDoublings) := by
  unfold encode part
  dsimp only
  by_cases hbit : bit = cx.likely
  · have hrest : ¬ 0x8000 ≤ e.a - cx.estimate.size.toNat := fun hrest => h ⟨hbit, hrest⟩
    by_cases hlt : e.a - cx.estimate.size.toNat < cx.estimate.size.toNat <;>
      simp [hbit, hrest, hlt]
  · by_cases hlt : e.a - cx.estimate.size.toNat < cx.estimate.size.toNat <;>
      simp [hbit, hlt]

/-- The bounds of the part that a bit selects. -/
theorem Ready.part (h : e.Ready) (hcx : cx.index < 47) (bit : Bool) :
    (e.part cx bit).Valid ∧ 0 < (e.part cx bit).a ∧
      (¬ e.Keeps cx bit → (e.part cx bit).a < 0x8000) := by
  obtain ⟨hpos, hle, -, -⟩ := estimate_spec hcx
  have hle_a := h.le_a
  have hsize : cx.estimate.size.toNat ≤ e.a := by omega
  unfold ArithmeticEncoder.part
  dsimp only
  split
  · exact ⟨h.valid.takeLower hsize, hpos, fun _ => by simp only [takeLower]; omega⟩
  · rename_i hupper
    refine ⟨h.valid.takeUpper hsize, by simp only [takeUpper]; omega, fun hkeeps => ?_⟩
    simp only [takeUpper]
    by_cases hbit : bit = cx.likely
    · exact Nat.lt_of_not_le fun hrest => hkeeps ⟨hbit, hrest⟩
    · have hlt : e.a - cx.estimate.size.toNat < cx.estimate.size.toNat := by
        rw [beq_eq_false_iff_ne.mpr hbit] at hupper
        simpa using hupper
      omega

theorem Leads.of_part (hready : e.Ready) (hcx : cx.index < 47) (h : Leads (e.part cx bit) s) :
    Leads e s := by
  have hle := (estimate_spec hcx).2.1
  have hle_a := hready.le_a
  have hsize : cx.estimate.size.toNat ≤ e.a := by omega
  unfold part at h
  dsimp only at h
  split at h
  · exact h.of_takeLower hsize
  · exact h.of_takeUpper hsize

theorem Ready.encode (h : e.Ready) (hcx : cx.index < 47) (bit : Bool) :
    (e.encode cx bit).2.Ready ∧ (e.encode cx bit).1.index < 47 := by
  obtain ⟨hvalid, hpos, hlt⟩ := h.part hcx bit
  obtain ⟨-, -, hlikely, hunlikely⟩ := estimate_spec hcx
  by_cases hkeeps : e.Keeps cx bit
  · obtain ⟨heq, hpart⟩ := encode_of_keeps hcx hkeeps
    rw [heq]
    refine ⟨⟨hvalid, ?_, ?_⟩, hcx⟩
    · rw [hpart]
      exact hkeeps.2
    · rw [hpart]
      exact (Nat.sub_le _ _).trans_lt h.a_lt
  · rw [encode_of_not_keeps hkeeps]
    have hsmall := hlt hkeeps
    obtain ⟨hle_a, ha_lt⟩ := a_renormalize ArithmeticDecoder.maxDoublings hsmall (by
      rw [ArithmeticDecoder.maxDoublings]
      omega)
    refine ⟨⟨hvalid.renormalize hsmall.le hpos, hle_a, ha_lt⟩, ?_⟩
    dsimp only
    split
    · exact hlikely
    · exact hunlikely

theorem Leads.of_encode (hready : e.Ready) (hcx : cx.index < 47)
    (h : Leads (e.encode cx bit).2 s) : Leads (e.part cx bit) s := by
  by_cases hkeeps : e.Keeps cx bit
  · rw [(encode_of_keeps hcx hkeeps).1] at h
    exact h
  · rw [encode_of_not_keeps hkeeps] at h
    obtain ⟨hvalid, hpos, hlt⟩ := hready.part hcx bit
    exact h.of_renormalize hvalid (hlt hkeeps).le hpos

section Runs

variable {κ : Type} [DecidableEq κ] {contexts : κ → BitContext} {decisions : List (κ × Bool)}

theorem update_index_lt (h : ∀ k, (contexts k).index < 47) {k : κ} (hcx : cx.index < 47) :
    ∀ j, (Function.update contexts k cx j).index < 47 := by
  intro j
  by_cases hj : j = k
  · subst hj
    rw [Function.update_self]
    exact hcx
  · rw [Function.update_of_ne hj]
    exact h j

theorem Ready.encodeAll (h : e.Ready) (hcontexts : ∀ k, (contexts k).index < 47) :
    (encodeAll e contexts decisions).Ready := by
  induction decisions generalizing e contexts with
  | nil => exact h
  | cons decision rest ih =>
    obtain ⟨k, bit⟩ := decision
    obtain ⟨hready, hindex⟩ := h.encode (hcontexts k) bit
    exact ih hready (update_index_lt hcontexts hindex)

theorem Leads.of_encodeAll (hready : e.Ready) (hcontexts : ∀ k, (contexts k).index < 47)
    (h : Leads (encodeAll e contexts decisions) s) : Leads e s := by
  induction decisions generalizing e contexts with
  | nil => exact h
  | cons decision rest ih =>
    obtain ⟨k, bit⟩ := decision
    obtain ⟨hnext, hindex⟩ := hready.encode (hcontexts k) bit
    have hrest := ih hnext (update_index_lt hcontexts hindex) h
    exact (hrest.of_encode hready (hcontexts k)).of_part hready (hcontexts k)

end Runs

/-! ## The end of a run -/

theorem base_due (hle : e.ct ≤ 27) : e.due.base = e.base * 2 ^ e.ct := by
  have hexp : 27 - e.ct + e.ct = 27 := by omega
  simp only [base, due, written, Nat.sub_zero, Nat.add_mul, Nat.mul_assoc, ← pow_add, hexp]

theorem scale_due (hle : e.ct ≤ 27) : e.due.scale = e.scale + e.ct := by
  simp only [scale, due, written]
  omega

theorem Leads.of_due (hle : e.ct ≤ 27) (h : Leads e.due s) : Leads e s := by
  refine h.of_within rfl (Eq.ge ?_) (Eq.le ?_)
  · rw [low, low, base_due hle, scale_due hle, frac_mul_two_pow]
  · rw [high, high, base_due hle, scale_due hle, due, ← Nat.add_mul, frac_mul_two_pow]

/-- The bytes that are written before they are due. -/
theorem Valid.flushByte_puts (h : e.Valid) (hpos : 0 < e.a) : Puts e.due e.flushByte := by
  refine putByte_puts rfl ?_
  have hroom := Nat.mul_le_mul_right (2 ^ e.ct) h.room
  have hle := h.ct_le
  have hexp : 24 - e.ct + e.ct = 24 := by omega
  have ha := Nat.mul_pos hpos (Nat.two_pow_pos e.ct)
  rw [Nat.mul_assoc, ← pow_add, hexp, Nat.add_mul] at hroom
  simp only [due]
  omega

theorem codeHigh_le_high_of_dvd (hdvd : 2 ^ (27 - e.ct) ∣ e.base + e.a) (hpos : 0 < e.a) :
    codeHigh e.written ≤ e.high := by
  rw [codeHigh, high, ← frac_mul_two_pow _ _ (27 - e.ct)]
  refine frac_le_frac.mpr ?_
  obtain ⟨k, hk⟩ := hdvd
  have hlt : codeValue e.written * 2 ^ (27 - e.ct) < k * 2 ^ (27 - e.ct) := by
    rw [Nat.mul_comm k, ← hk, base]
    omega
  rw [hk, Nat.mul_comm (2 ^ (27 - e.ct)) k]
  exact Nat.mul_le_mul_right _ (Nat.lt_of_mul_lt_mul_right hlt)

/-- The flush: all that is cut off of the lower end are ones, so the string continued with ones is
the upper end of the interval that is left. -/
theorem leads_flush (h : e.Valid) (ha : e.a = 1) (hones : 2 ^ 15 ∣ e.c + 1) :
    Leads e e.flushByte.flushByte.written := by
  have hct_pos := h.ct_pos
  have hct_le := h.ct_le
  have hpos : 0 < e.a := by omega
  have hfirst := h.flushByte_puts hpos
  have ha_first : e.flushByte.a = 2 ^ e.ct := by rw [hfirst.a_eq, due, ha, Nat.one_mul]
  have hct_first := hfirst.ct_eq
  have hroom : e.flushByte.c + e.flushByte.a ≤ 9 * 2 ^ (24 - e.flushByte.ct) := by
    have hc := hfirst.c_lt
    have hle : 2 ^ e.ct ≤ 2 ^ 12 := Nat.pow_le_pow_right (by decide) hct_le
    rw [ha_first]
    rcases hct_first with hct | hct <;> rw [hct] at hc ⊢ <;> omega
  have hvalid : e.flushByte.Valid := by
    have hle : 2 ^ e.ct ≤ 2 ^ 12 := Nat.pow_le_pow_right (by decide) hct_le
    exact ⟨by omega, by omega, hroom, by omega⟩
  have hsecond := hvalid.flushByte_puts (by rw [ha_first]; exact Nat.two_pow_pos _)
  generalize hlast : e.flushByte.flushByte = last at hsecond
  have hct_last := hsecond.ct_eq
  have hend : last.base + last.a = (e.base + 1) * 2 ^ (e.ct + e.flushByte.ct) := by
    rw [hsecond.base_eq, hsecond.a_eq, base_due (by omega), due, ha_first, hfirst.base_eq,
      base_due (by omega), ← Nat.add_mul, pow_add]
    ring
  have hdvd : 2 ^ (27 - last.ct) ∣ last.base + last.a := by
    have hones : 2 ^ 15 ∣ e.base + 1 := by
      rw [base, Nat.add_assoc]
      exact Nat.dvd_add (Dvd.dvd.mul_left (pow_dvd_pow 2 (by omega)) _) hones
    rw [hend]
    exact (pow_dvd_pow 2 (by omega : 27 - last.ct ≤ 15 + (e.ct + e.flushByte.ct))).trans
      (pow_add 2 15 (e.ct + e.flushByte.ct) ▸ Nat.mul_dvd_mul_right hones _)
  have ha_last : 0 < last.a := by
    rw [hsecond.a_eq, due, ha_first]
    positivity
  have hleads : Leads last last.written := {
    completes := .inl List.suffix_rfl
    low_lt := low_lt_of_c_lt hsecond.c_lt
    le_high := codeHigh_le_high_of_dvd hdvd ha_last
    ahead := fun w hw hlt => absurd hw.length_le (by omega)
    stuffed := fun b w hw hlt => by
      have hle := hw.length_le
      simp only [List.length_cons] at hle
      omega }
  have hmiddle := (hleads.of_puts hsecond (.inl rfl)).of_due (by omega)
  exact (hmiddle.of_puts hfirst (.inr hroom)).of_due (by omega)

/-- The value that is chosen at the end lies in the interval and ends in ones. -/
theorem setBits_spec (h : e.Ready) : e.setBits.Valid ∧ e.setBits.a = 1 ∧
    2 ^ 15 ∣ e.setBits.c + 1 ∧ e.c ≤ e.setBits.c ∧ e.setBits.c + 1 ≤ e.c + e.a := by
  have hor : e.c ||| 0xFFFF = 2 ^ 16 * (e.c / 2 ^ 16) + 0xFFFF := by
    rw [Nat.two_pow_add_eq_or_of_lt (by decide)]
    refine Nat.eq_of_testBit_eq fun i => ?_
    rw [Nat.testBit_or, Nat.testBit_or, Nat.testBit_two_pow_mul, Nat.testBit_div_two_pow,
      show 0xFFFF = 2 ^ 16 - 1 from rfl, Nat.testBit_two_pow_sub_one]
    by_cases hi : i < 16
    · simp [hi]
    · simp [hi, Nat.sub_add_cancel (Nat.le_of_not_lt hi), Nat.le_of_not_lt hi]
  have hle := h.le_a
  have hc : e.c ≤ e.setBits.c ∧ e.setBits.c + 1 ≤ e.c + e.a ∧ 2 ^ 15 ∣ e.setBits.c + 1 := by
    simp only [setBits, hor]
    split <;> omega
  have hroom : e.setBits.c + 1 ≤ 9 * 2 ^ (24 - e.ct) := hc.2.1.trans h.valid.room
  have ha : 1 ≤ 0x10000 := by decide
  exact ⟨⟨h.valid.ct_pos, h.valid.ct_le, hroom, ha⟩, rfl, hc.2.2, hc.1, hc.2.1⟩

theorem leads_flushed (h : e.Ready) : Leads e e.flushed := by
  obtain ⟨hvalid, ha, hones, hle, hlt⟩ := setBits_spec h
  refine (leads_flush hvalid ha hones).of_within rfl (frac_le_frac.mpr ?_) (frac_le_frac.mpr ?_)
  · exact Nat.add_le_add_left hle _
  · rw [ha, base, base, Nat.add_assoc, Nat.add_assoc]
    exact Nat.add_le_add_left hlt _

end ArithmeticEncoder

end Folio.Bilevel
