import Folio.Object.Str
import Folio.Proofs.Bytes

/-!
# Strings of hexadecimal digits

A string stores its data as digits or as they are. Main statement: `ofHexBytes_reads_completed`, the two have the
same data, and the digits read as the data completed to whole 16-bit units. So both have the same text, and the same
digits, exactly if there is nothing to complete.
-/

namespace Folio

/-! ## Digits of bytes -/

namespace Bytes

theorem toHex_cons (b : UInt8) (bytes : Bytes) :
    toHex (b :: bytes) = hexDigit (b / 16) :: hexDigit (b % 16) :: toHex bytes := rfl

theorem toHex_append (front back : Bytes) : toHex (front ++ back) = toHex front ++ toHex back :=
  List.flatMap_append

@[simp] theorem length_toHex (bytes : Bytes) : (toHex bytes).length = 2 * bytes.length := by
  induction bytes with
  | nil => rfl
  | cons b bytes ih =>
    rw [toHex_cons, List.length_cons, List.length_cons, ih, List.length_cons]
    omega

/-- Bytes are read back from their digits. -/
theorem ofHexPairs_toHex (bytes : Bytes) : ofHexPairs (toHex bytes) = bytes := by
  induction bytes with
  | nil => rfl
  | cons b bytes ih =>
    obtain ⟨hhigh, hlow, hvalue⟩ := hexValue?_hexDigit b
    rw [toHex_cons, ofHexPairs, hhigh, hlow, ih, Option.getD_some, Option.getD_some, hvalue]

@[simp] theorem length_toLatin1 (bytes : Bytes) : (toLatin1 bytes).length = bytes.length := by
  rw [toLatin1, String.length_ofList, List.length_map]

/-- Whether bytes are whole 16-bit units, or a single byte. -/
def IsComplete (bytes : Bytes) : Prop := bytes.length ≤ 1 ∨ bytes.length % 2 = 0

instance (bytes : Bytes) : Decidable bytes.IsComplete := inferInstanceAs (Decidable (_ ∨ _))

/-- The bytes, with a zero that completes the last unit where it is missing. -/
def completed (bytes : Bytes) : Bytes := if bytes.IsComplete then bytes else bytes ++ [0]

theorem odd_of_not_isComplete {bytes : Bytes} (h : ¬ bytes.IsComplete) :
    1 < bytes.length ∧ bytes.length % 2 = 1 := by
  unfold IsComplete at h
  omega

end Bytes

/-! ## The unit that is left over -/

namespace Text.Utf16

/-- A pair of surrogates is no replacement character. -/
theorem pair_ne_replacement {high low : Nat} (hhigh : isHigh high = true) (hlow : isLow low = true) :
    Char.ofNat (0x10000 + (high - 0xD800) * 0x400 + (low - 0xDC00)) ≠ replacement := by
  simp only [isHigh, isLow, Bool.and_eq_true, decide_eq_true_eq] at hhigh hlow
  have hvalid : (0x10000 + (high - 0xD800) * 0x400 + (low - 0xDC00)).isValidChar := by
    right
    omega
  have hreplacement : replacement.toNat = 0xFFFD := by decide
  intro h
  have hvalue := congrArg Char.toNat h
  rw [Char.toNat_ofNat, if_pos hvalid] at hvalue
  omega

/-- One more unit changes what units are read as: it is a character of its own, or it completes a pair. -/
theorem decode_append_singleton_ne (units : List Nat) (unit : Nat) :
    decode (units ++ [unit]) ≠ decode units := by
  induction units using decode.induct with
  | case1 => exact List.cons_ne_nil _ _
  | case2 last =>
    rw [List.singleton_append, decode]
    by_cases hhigh : isHigh last = true
    · by_cases hlow : isLow unit = true
      · simpa [hhigh, hlow, decode] using pair_ne_replacement hhigh hlow
      · simp [hhigh, hlow, decode]
    · simp [hhigh, decode]
  | case3 high low rest hhigh hlow ih =>
    rw [List.cons_append, List.cons_append, decode, decode, if_pos hhigh, if_pos hlow, if_pos hhigh,
      if_pos hlow]
    exact fun h => ih (List.cons.inj h).2
  | case4 high next rest hhigh hlow ih =>
    rw [List.cons_append, List.cons_append, decode, decode, if_pos hhigh, if_neg hlow, if_pos hhigh,
      if_neg hlow]
    exact fun h => ih (List.cons.inj h).2
  | case5 first next rest hhigh ih =>
    rw [List.cons_append, List.cons_append, decode, decode, if_neg hhigh, if_neg hhigh]
    exact fun h => ih (List.cons.inj h).2

theorem units_append {front : Bytes} (h : front.length % 2 = 0) (back : Bytes) :
    units (front ++ back) = units front ++ units back := by
  induction front using units.induct with
  | case1 high low rest ih =>
    have hrest : rest.length % 2 = 0 := by
      rw [List.length_cons, List.length_cons] at h
      omega
    rw [List.cons_append, List.cons_append, units, units, ih hrest, List.cons_append]
  | case2 front hshort =>
    match front, hshort with
    | [], _ => rfl
    | [b], _ => cases h
    | high :: low :: rest, hshort => exact absurd rfl (hshort high low rest)

/-- An odd last byte is dropped, but with a zero after it it is the upper half of one more unit. -/
theorem exists_units_append_zero {bytes : Bytes} (h : bytes.length % 2 = 1) :
    ∃ unit, units (bytes ++ [0]) = units bytes ++ [unit] := by
  obtain rfl | ⟨front, last, rfl⟩ := List.eq_nil_or_concat' bytes
  · cases h
  · have hfront : front.length % 2 = 0 := by
      rw [List.length_append, List.length_singleton] at h
      omega
    refine ⟨last.toNat * 256 + 0, ?_⟩
    rw [List.append_assoc, units_append hfront, units_append hfront, List.append_assoc]
    rfl

end Text.Utf16

/-- The zero that completes the last unit is read as part of the text. -/
theorem decodeText_append_zero_ne {bytes : Bytes} (h : ¬ bytes.IsComplete) :
    decodeText (bytes ++ [0]) ≠ decodeText bytes := by
  obtain ⟨hlong, hodd⟩ := Bytes.odd_of_not_isComplete h
  obtain ⟨first, second, rest, rfl⟩ : ∃ first second rest, bytes = first :: second :: rest := by
    match bytes, hlong with
    | first :: second :: rest, _ => exact ⟨first, second, rest, rfl⟩
  rw [List.cons_append, List.cons_append]
  by_cases hmark : first = 0xFE ∧ second = 0xFF
  · obtain ⟨rfl, rfl⟩ := hmark
    have hrest : rest.length % 2 = 1 := by
      rw [List.length_cons, List.length_cons] at hodd
      omega
    obtain ⟨unit, hunits⟩ := Text.Utf16.exists_units_append_zero hrest
    intro heq
    rw [decodeText, decodeText, Text.Utf16.decodeBytes, Text.Utf16.decodeBytes, String.ofList_inj, hunits] at heq
    exact Text.Utf16.decode_append_singleton_ne _ unit heq
  · have hplain (tail : Bytes) :
        decodeText (first :: second :: tail) = Bytes.toLatin1 (first :: second :: tail) := by
      refine decodeText.eq_2 _ fun marked heq => hmark ?_
      have hfirst := List.cons.inj heq
      exact ⟨hfirst.1, (List.cons.inj hfirst.2).1⟩
    intro heq
    have hlength := congrArg String.length heq
    rw [hplain, hplain, Bytes.length_toLatin1, Bytes.length_toLatin1, List.length_cons, List.length_cons,
      List.length_append] at hlength
    simp at hlength

/-! ## Both ways to store data -/

namespace Str

/-- The digits of bytes are whole bytes, and are completed as the bytes are. -/
theorem padToByte_toHex (bytes : Bytes) : padToByte bytes.toHex = bytes.toHex := by
  refine if_pos ?_
  rw [Bytes.length_toHex, Nat.mul_mod_right]

theorem padToUnit_toHex (bytes : Bytes) : padToUnit bytes.toHex = bytes.completed.toHex := by
  rw [padToUnit, padToByte_toHex, Bytes.length_toHex, Bytes.completed]
  by_cases h : bytes.IsComplete
  · have hwhole : ¬ (2 < 2 * bytes.length ∧ 2 * bytes.length % 4 ≠ 0) := by
      unfold Bytes.IsComplete at h
      omega
    rw [if_pos h, if_neg hwhole]
  · have hodd : 2 < 2 * bytes.length ∧ 2 * bytes.length % 4 ≠ 0 := by
      have := Bytes.odd_of_not_isComplete h
      omega
    rw [if_neg h, if_pos hodd, Bytes.toHex_append]
    rfl

theorem bytes_ofHexBytes (data : Bytes) : (ofHexBytes data).bytes = data := by
  simp only [ofHexBytes, bytes, padToByte_toHex, Bytes.ofHexPairs_toHex]

theorem text_ofHexBytes (data : Bytes) : (ofHexBytes data).text = (ofBytes data.completed).text := by
  simp only [ofHexBytes, ofBytes, text, padToUnit_toHex, Bytes.ofHexPairs_toHex]

theorem hexText_ofHexBytes (data : Bytes) :
    (ofHexBytes data).hexText = (ofBytes data.completed).hexText := by
  simp only [ofHexBytes, ofBytes, hexText, padToUnit_toHex]

/-- Data that are stored as digits are the same data, and their text and their digits are those of the data
completed to whole units: the same as without completion exactly if there is nothing to complete. -/
theorem ofHexBytes_reads_completed (data : Bytes) :
    (ofHexBytes data).bytes = (ofBytes data).bytes ∧
      (ofHexBytes data).text = (ofBytes data.completed).text ∧
      (ofHexBytes data).hexText = (ofBytes data.completed).hexText ∧
      ((ofHexBytes data).text = (ofBytes data).text ↔ data.length ≤ 1 ∨ data.length % 2 = 0) ∧
      ((ofHexBytes data).hexText = (ofBytes data).hexText ↔ data.length ≤ 1 ∨ data.length % 2 = 0) := by
  refine ⟨bytes_ofHexBytes data, text_ofHexBytes data, hexText_ofHexBytes data, ?_, ?_⟩
  · rw [text_ofHexBytes, ← Bytes.IsComplete]
    by_cases h : data.IsComplete
    · rw [Bytes.completed, if_pos h]
      exact iff_of_true rfl h
    · rw [Bytes.completed, if_neg h]
      exact iff_of_false (decodeText_append_zero_ne h) h
  · rw [hexText_ofHexBytes, ← Bytes.IsComplete]
    by_cases h : data.IsComplete
    · rw [Bytes.completed, if_pos h]
      exact iff_of_true rfl h
    · rw [Bytes.completed, if_neg h]
      refine iff_of_false (fun heq => ?_) h
      have hlength := congrArg String.length heq
      simp [hexText, ofBytes] at hlength

/-- Three bytes are completed to two units. -/
theorem not_forall_ofHexBytes :
    ¬ ∀ data : Bytes, (ofHexBytes data).text = (ofBytes data).text ∧
      (ofHexBytes data).hexText = (ofBytes data).hexText ∧ (ofHexBytes data).bytes = (ofBytes data).bytes := by
  intro h
  have hdigits := (h [0x41, 0x42, 0x43]).2.1
  have hlong : (ofHexBytes [0x41, 0x42, 0x43]).hexText = "41424300" := by decide
  have hshort : (ofBytes [0x41, 0x42, 0x43]).hexText = "414243" := by decide
  rw [hlong, hshort] at hdigits
  revert hdigits
  decide

end Str

end Folio
