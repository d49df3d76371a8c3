import Folio.Proofs.Object.Hexadecimal

/-!
# Text in UTF-16

Main statement: `text_marked`, text is read back from its code units after the byte order mark, and of any code units
the surrogates without a partner, and only these, are read as replacement characters. It does not matter whether a
string stores them as bytes or as digits.

The digits of a string are read as bytes first. `textOfDigits` reads them in groups of four instead.
-/

namespace Folio

namespace Text.Utf16

/-! ## Code units -/

/-- The code units of a character: a pair of surrogates where one unit is too small. -/
def encodeChar (c : Char) : List UInt16 :=
  if c.toNat < 0x10000 then [c.toNat.toUInt16]
  else [(0xD800 + (c.toNat - 0x10000) / 0x400).toUInt16, (0xDC00 + (c.toNat - 0x10000) % 0x400).toUInt16]

/-- The code units of some text. -/
def encode (s : List Char) : List UInt16 := s.flatMap encodeChar

/-- The bytes of some code units after the byte order mark, high byte first. -/
def marked (units : List UInt16) : Bytes := 0xFE :: 0xFF :: units.flatMap fun unit => Bytes.ofNatBE 2 unit.toNat

/-- What a code unit between two others is read as: a pair of surrogates is a character, for which its first half
stands, and any other surrogate is replaced. -/
def charOf? (before unit after : Nat) : Option Char :=
  if isHigh unit && isLow after then some (Char.ofNat (0x10000 + (unit - 0xD800) * 0x400 + (after - 0xDC00)))
  else if isHigh before && isLow unit then none
  else if isHigh unit || isLow unit then some replacement
  else some (Char.ofNat unit)

/-- What some code units are read as, each by its neighbours. Zero stands for a neighbour that is missing. -/
def charsOf (before : Nat) : List Nat → List Char
  | [] => []
  | unit :: rest => (charOf? before unit (rest.headD 0)).toList ++ charsOf unit rest

/-! ## Reading code units -/

variable {unit low : Nat}

theorem isLow_eq_false (h : isHigh unit = true) : isLow unit = false := by
  simp only [isHigh, isLow, Bool.and_eq_true, decide_eq_true_eq, Bool.and_eq_false_iff, decide_eq_false_iff_not] at h ⊢
  omega

theorem isHigh_eq_false (h : isLow unit = true) : isHigh unit = false := by
  by_contra hnot
  rw [isLow_eq_false (Bool.not_eq_false _ ▸ hnot)] at h
  cases h

/-- Reading goes from the left, but what a unit is read as depends on its neighbours alone. -/
theorem decode_eq_charsOf {before : Nat} (units : List Nat) (h : (isHigh before && isLow (units.headD 0)) = false) :
    decode units = charsOf before units := by
  induction units using decode.induct generalizing before with
  | case1 => rfl
  | case2 unit =>
    have hlast : (isHigh unit && isLow 0) = false := Bool.and_false _
    have h : (isHigh before && isLow unit) = false := h
    rw [decode, charsOf, charsOf, List.headD_nil, charOf?, hlast, h]
    cases isHigh unit || isLow unit <;> rfl
  | case3 unit next rest hhigh hlow ih =>
    have hnext : isHigh next = false := isHigh_eq_false hlow
    have hpair : charOf? unit next (rest.headD 0) = none := by
      simp [charOf?, hhigh, hlow, hnext]
    rw [decode, if_pos hhigh, if_pos hlow, charsOf, charsOf, List.headD_cons, hpair, @ih next (by simp [hnext])]
    simp [charOf?, hhigh, hlow]
  | case4 unit next rest hhigh hlow ih =>
    have hlow : isLow next = false := Bool.eq_false_iff.mpr hlow
    rw [decode, if_pos hhigh, hlow, charsOf, List.headD_cons, ← @ih unit (by simp [hlow])]
    simp [charOf?, hhigh, hlow, isLow_eq_false hhigh]
  | case5 unit next rest hhigh ih =>
    have hhigh : isHigh unit = false := Bool.eq_false_iff.mpr hhigh
    have h : (isHigh before && isLow unit) = false := h
    rw [decode, hhigh, charsOf, List.headD_cons, ← @ih unit (by simp [hhigh]), charOf?, hhigh, h]
    cases isLow unit <;> rfl

example : charsOf 0 [0xD83D, 0xD83D, 0xDE00, 0xDE00, 0x41] = [replacement, Char.ofNat 0x1F600, replacement, 'A'] := by
  decide

/-- A unit that is no surrogate is a character, whatever follows. -/
theorem decode_cons (hhigh : isHigh unit = false) (hlow : isLow unit = false) (rest : List Nat) :
    decode (unit :: rest) = Char.ofNat unit :: decode rest := by
  cases rest with
  | nil => simp [decode, hhigh, hlow]
  | cons next rest => simp [decode, hhigh, hlow]

theorem decode_pair (hhigh : isHigh unit = true) (hlow : isLow low = true) (rest : List Nat) :
    decode (unit :: low :: rest) =
      Char.ofNat (0x10000 + (unit - 0xD800) * 0x400 + (low - 0xDC00)) :: decode rest := by
  rw [decode, if_pos hhigh, if_pos hlow]

theorem toNat_toUInt16 {n : Nat} (h : n < 0x10000) : n.toUInt16.toNat = n := by
  rw [Nat.toUInt16, UInt16.toNat_ofNat']
  exact Nat.mod_eq_of_lt h

/-- A character is read back from its code units. -/
theorem decode_encodeChar_append (c : Char) (rest : List Nat) :
    decode ((encodeChar c).map UInt16.toNat ++ rest) = c :: decode rest := by
  have hvalid : c.toNat < 0xD800 ∨ 0xDFFF < c.toNat ∧ c.toNat < 0x110000 := c.valid
  have hofNat : Char.ofNat c.toNat = c := Char.ofNat_toNat c
  unfold encodeChar
  split
  · rename_i hsmall
    have hhigh : isHigh c.toNat = false := by
      simp only [isHigh, Bool.and_eq_false_iff, decide_eq_false_iff_not]
      omega
    have hlow : isLow c.toNat = false := by
      simp only [isLow, Bool.and_eq_false_iff, decide_eq_false_iff_not]
      omega
    rw [List.map_singleton, toNat_toUInt16 hsmall, List.singleton_append, decode_cons hhigh hlow, hofNat]
  · rename_i hlarge
    generalize hhalf : 0xD800 + (c.toNat - 0x10000) / 0x400 = high
    generalize hrest : 0xDC00 + (c.toNat - 0x10000) % 0x400 = low
    have hhigh : isHigh high = true := by
      simp only [isHigh, Bool.and_eq_true, decide_eq_true_eq]
      omega
    have hlow : isLow low = true := by
      simp only [isLow, Bool.and_eq_true, decide_eq_true_eq]
      omega
    have hvalue : 0x10000 + (high - 0xD800) * 0x400 + (low - 0xDC00) = c.toNat := by omega
    rw [List.map_cons, List.map_singleton, toNat_toUInt16 (by omega), toNat_toUInt16 (by omega), List.cons_append,
      List.singleton_append, decode_pair hhigh hlow, hvalue, hofNat]

/-- Text is read back from its code units. -/
theorem decode_encode (s : List Char) : decode ((encode s).map UInt16.toNat) = s := by
  induction s with
  | nil => rfl
  | cons c s ih => rw [encode, List.flatMap_cons, ← encode, List.map_append, decode_encodeChar_append, ih]

/-- The units of bytes are those that were written. -/
theorem units_flatMap (codes : List UInt16) :
    units (codes.flatMap fun unit => Bytes.ofNatBE 2 unit.toNat) = codes.map UInt16.toNat := by
  induction codes with
  | nil => rfl
  | cons unit codes ih =>
    obtain ⟨high, low, hbytes⟩ : ∃ high low, Bytes.ofNatBE 2 unit.toNat = [high, low] :=
      List.length_eq_two.mp (Bytes.length_ofNatBE _ _)
    have hvalue : Bytes.toNatBE [high, low] = unit.toNat := by
      rw [← hbytes, Bytes.toNatBE_ofNatBE unit.toNat_lt]
    have hvalue : high.toNat * 256 + low.toNat = unit.toNat := by
      simpa [Bytes.toNatBE] using hvalue
    rw [List.flatMap_cons, hbytes, List.cons_append, List.singleton_append, units, hvalue, ih, List.map_cons]

theorem isComplete_marked (codes : List UInt16) : (marked codes).IsComplete := by
  have hlength : (codes.flatMap fun unit => Bytes.ofNatBE 2 unit.toNat).length = 2 * codes.length := by
    simp [List.length_flatMap, Nat.mul_comm]
  right
  rw [marked, List.length_cons, List.length_cons, hlength]
  omega

theorem decodeText_marked (codes : List UInt16) :
    decodeText (marked codes) = String.ofList (decode (codes.map UInt16.toNat)) := by
  rw [marked, decodeText, decodeBytes, units_flatMap]

/-! ## Groups of digits -/

/-- The value of a digit. -/
def digitValue (digit : UInt8) : Nat := ((Bytes.hexValue? digit).getD 0).toNat

/-- The code units that groups of four digits stand for. -/
def unitsOfDigits : Bytes → List Nat
  | a :: b :: c :: d :: rest =>
    (((digitValue a * 16 + digitValue b) * 16 + digitValue c) * 16 + digitValue d) :: unitsOfDigits rest
  | _ => []

theorem digitValue_lt : ∀ digit, digitValue digit < 16 := by decide +kernel

theorem toNat_digits (a b : UInt8) :
    ((Bytes.hexValue? a).getD 0 * 16 + (Bytes.hexValue? b).getD 0).toNat = digitValue a * 16 + digitValue b := by
  have hhigh := digitValue_lt a
  have hlow := digitValue_lt b
  unfold digitValue at *
  have hbase : (16 : UInt8).toNat = 16 := rfl
  rw [UInt8.toNat_add, UInt8.toNat_mul, hbase]
  omega

/-- Reading pairs of digits as bytes and pairs of bytes as units is reading groups of four digits. -/
theorem units_ofHexPairs (digits : Bytes) : units (Bytes.ofHexPairs digits) = unitsOfDigits digits := by
  induction digits using unitsOfDigits.induct with
  | case1 a b c d rest ih =>
    rw [Bytes.ofHexPairs, Bytes.ofHexPairs, units, toNat_digits, toNat_digits, ih, unitsOfDigits]
    congr 1
    omega
  | case2 digits hshort =>
    rcases digits with _ | ⟨a, _ | ⟨b, _ | ⟨c, _ | ⟨d, rest⟩⟩⟩⟩
    · rfl
    · rfl
    · rfl
    · rfl
    · exact absurd rfl (hshort a b c d rest)

/-- Bytes begin with the mark if their first unit is the mark. -/
theorem head?_units_eq_mark {high low : UInt8} {rest : Bytes} :
    (units (high :: low :: rest)).head? = some 0xFEFF ↔ high = 0xFE ∧ low = 0xFF := by
  have hhigh := high.toNat_lt
  have hlow := low.toNat_lt
  rw [units, List.head?_cons, Option.some.injEq, ← UInt8.toNat_inj, ← UInt8.toNat_inj]
  have hfirst : (0xFE : UInt8).toNat = 0xFE := rfl
  have hsecond : (0xFF : UInt8).toNat = 0xFF := rfl
  omega

/-- The text of digits, read in groups of four after the byte order mark `FEFF`, and in pairs without it. -/
def textOfDigits (digits : Bytes) : String :=
  if (unitsOfDigits digits).head? = some 0xFEFF then String.ofList (decode (unitsOfDigits digits).tail)
  else (Bytes.ofHexPairs digits).toLatin1

/-- Groups of digits give the same text as the bytes that the digits stand for. -/
theorem decodeText_ofHexPairs (digits : Bytes) : decodeText (Bytes.ofHexPairs digits) = textOfDigits digits := by
  rw [textOfDigits, ← units_ofHexPairs]
  generalize Bytes.ofHexPairs digits = bytes
  rcases bytes with _ | ⟨high, _ | ⟨low, rest⟩⟩
  · rfl
  · refine decodeText.eq_2 [high] fun rest heq => ?_
    cases heq
  · by_cases hmark : high = 0xFE ∧ low = 0xFF
    · rw [if_pos (head?_units_eq_mark.mpr hmark), hmark.1, hmark.2]
      rfl
    · rw [if_neg (mt head?_units_eq_mark.mp hmark)]
      refine decodeText.eq_2 _ fun marked heq => hmark ?_
      exact ⟨(List.cons.inj heq).1, (List.cons.inj (List.cons.inj heq).2).1⟩

end Text.Utf16

/-! ## Strings -/

namespace Str

open Text.Utf16

/-- The text of digits is what they are read as in groups of four. -/
theorem text_hex (digits : Bytes) (owner : Option Ref) :
    (Str.mk (.hex digits) owner).text = textOfDigits (padToUnit digits) :=
  decodeText_ofHexPairs _

/-- Units are whole, so nothing is added to their digits. -/
theorem text_ofHexBytes_marked (codes : List UInt16) :
    (ofHexBytes (marked codes)).text = decodeText (marked codes) := by
  rw [text_ofHexBytes, Bytes.completed, if_pos (isComplete_marked codes)]
  rfl

/-- Text is read back from its code units, and of any code units each is read as its neighbours tell: those of a pair
as one character, any other surrogate as a replacement character. The text of the bytes, of a literal string, of a
string of digits, and of these digits in groups of four is the same. -/
theorem text_marked :
    (∀ s : List Char,
      let data := marked (encode s)
      decodeText data = String.ofList s ∧ (ofBytes data).text = String.ofList s ∧
        (ofHexBytes data).text = String.ofList s ∧ textOfDigits (padToUnit data.toHex) = String.ofList s) ∧
    ∀ units : List UInt16,
      let data := marked units
      let text := String.ofList (charsOf 0 (units.map UInt16.toNat))
      decodeText data = text ∧ (ofBytes data).text = text ∧ (ofHexBytes data).text = text ∧
        textOfDigits (padToUnit data.toHex) = text := by
  have hsame {codes : List UInt16} {text : String} (h : decodeText (marked codes) = text) :
      decodeText (marked codes) = text ∧ (ofBytes (marked codes)).text = text ∧
        (ofHexBytes (marked codes)).text = text ∧ textOfDigits (padToUnit (marked codes).toHex) = text := by
    have hdigits : (ofHexBytes (marked codes)).text = text := (text_ofHexBytes_marked codes).trans h
    exact ⟨h, h, hdigits, (text_hex _ none).symm.trans hdigits⟩
  refine ⟨fun s => hsame ?_, fun units => hsame ?_⟩
  · rw [decodeText_marked, decode_encode]
  · have hfirst : (isHigh 0 && isLow ((units.map UInt16.toNat).headD 0)) = false := Bool.false_and _
    rw [decodeText_marked, decode_eq_charsOf _ hfirst]

end Str

end Folio
