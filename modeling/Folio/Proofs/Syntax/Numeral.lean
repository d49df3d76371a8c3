import Folio.Proofs.Syntax.Space

/-!
# Writing integers

Main statement: a 64-bit integer is read back from its decimal digits, if no word goes on after them.
-/

namespace Folio.Syntax

variable {rest : Bytes}

/-- The decimal digits of a number. -/
def digits (n : Nat) : Bytes := Bytes.ofAscii (toString n)

theorem ofAscii_append (s t : String) :
    Bytes.ofAscii (s ++ t) = Bytes.ofAscii s ++ Bytes.ofAscii t := by
  simp [Bytes.ofAscii]

theorem digits_eq (n : Nat) : digits n = (Nat.toDigits 10 n).map fun c => c.toNat.toUInt8 := by
  rw [digits, Nat.toString_eq_ofList_toDigits, Bytes.ofAscii, String.toList_ofList]

theorem digits_ne_nil (n : Nat) : digits n ≠ [] := by
  simp [digits_eq]

/-- The value of a digit. -/
theorem toNat_of_isDigit {c : Char} (h : c.isDigit = true) :
    48 ≤ c.toNat ∧ c.toNat ≤ 57 := by
  simp only [Char.isDigit, Bool.and_eq_true, decide_eq_true_eq, UInt32.le_iff_toNat_le] at h
  exact h

theorem isDigit_of_mem_digits (n : Nat) : ∀ b ∈ digits n, isDigit b = true := by
  intro b hb
  rw [digits_eq, List.mem_map] at hb
  obtain ⟨c, hc, rfl⟩ := hb
  obtain ⟨hlow, hhigh⟩ := toNat_of_isDigit (Nat.isDigit_of_mem_toDigits (by decide) (by decide) hc)
  simp only [isDigit, Bool.and_eq_true, decide_eq_true_eq, UInt8.le_iff_toNat_le, Nat.toUInt8,
    UInt8.toNat_ofNat']
  simp
  omega

theorem digitsValue_digits (n : Nat) : Decimal.digitsValue (digits n) = n := by
  have hfold : ∀ (cs : List Char) (value : Nat), (∀ c ∈ cs, c.isDigit = true) →
      (cs.map fun c => c.toNat.toUInt8).foldl (fun n d => n * 10 + (d - 48).toNat) value =
        Nat.ofDigitChars 10 cs value := by
    intro cs
    induction cs with
    | nil => intro value _; rfl
    | cons c cs ih =>
      intro value hcs
      obtain ⟨hc, hcs⟩ := List.forall_mem_cons.mp hcs
      obtain ⟨hlow, hhigh⟩ := toNat_of_isDigit hc
      have hdigit : (c.toNat.toUInt8 - 48).toNat = c.toNat - 48 := by
        have hle : (48 : UInt8) ≤ c.toNat.toUInt8 := by
          simp [UInt8.le_iff_toNat_le, Nat.toUInt8]
          omega
        rw [UInt8.toNat_sub_of_le _ _ hle]
        simp [Nat.toUInt8]
        omega
      rw [List.map_cons, List.foldl_cons, hdigit, ih _ hcs, Nat.mul_comm]
      rfl
  rw [Decimal.digitsValue, digits_eq, hfold _ _ fun c hc =>
    Nat.isDigit_of_mem_toDigits (by decide) (by decide) hc, Nat.ofDigitChars_ten_toDigits]

theorem digits_endsWord (h : EndsWord rest) : ∀ b ∈ rest.head?, isDigit b = false := by
  have hregular : ∀ b : UInt8, isRegular b = false → isDigit b = false := by decide +kernel
  intro b hb
  exact hregular b (h b hb)

theorem span_digits (n : Nat) (h : EndsWord rest) :
    (digits n ++ rest).takeWhile isDigit = digits n ∧ (digits n ++ rest).dropWhile isDigit = rest :=
  span_append (isDigit_of_mem_digits n) (digits_endsWord h)

/-- The decimal digits of an integer, with a minus sign if it is negative. -/
def integerText (i : Int) : Bytes := Bytes.ofAscii (toString i)

theorem integerText_natCast (n : Nat) : integerText n = digits n := rfl

theorem integerText_negSucc (n : Nat) : integerText (Int.negSucc n) = 45 :: digits (n + 1) :=
  ofAscii_append "-" (toString (n + 1))

theorem splitSign_digits (n : Nat) (rest : Bytes) :
    splitSign (digits n ++ rest) = (false, digits n ++ rest) := by
  obtain ⟨b, bytes, hdigits⟩ := List.exists_cons_of_ne_nil (digits_ne_nil n)
  have hb : isDigit b = true := isDigit_of_mem_digits n b (by simp [hdigits])
  have hsign : ∀ b : UInt8, isDigit b = true → b ≠ 43 ∧ b ≠ 45 := by decide +kernel
  obtain ⟨hplus, hminus⟩ := hsign b hb
  simp [hdigits, splitSign, hplus, hminus]

theorem splitSign_integerText (i : Int) (rest : Bytes) :
    splitSign (integerText i ++ rest) = (decide (i < 0), digits i.natAbs ++ rest) := by
  cases i with
  | ofNat n =>
    have hpos : ¬ (n : Int) < 0 := Int.not_lt.mpr (Int.natCast_nonneg n)
    simpa [integerText_natCast, hpos] using splitSign_digits n rest
  | negSucc n =>
    rw [integerText_negSucc]
    simp [splitSign]

theorem readNumeral?_append (i : Int) (h : EndsWord rest) :
    readNumeral? (integerText i ++ rest) =
      some (⟨decide (i < 0), digits i.natAbs, none⟩, rest) := by
  obtain ⟨htake, hdrop⟩ := span_digits i.natAbs h
  have hne : (digits i.natAbs).isEmpty = false := by simp [digits_ne_nil]
  simp only [readNumeral?, splitSign_integerText, htake, hdrop]
  split
  · exact absurd (h 46 rfl) (by decide)
  · simp [hne]

theorem Numeral.toInt_digits (i : Int) :
    (⟨decide (i < 0), digits i.natAbs, none⟩ : Numeral).toInt = i := by
  simp only [Numeral.toInt, digitsValue_digits, decide_eq_true_eq]
  split <;> omega

theorem readNumber?_append (i : Int64) (h : EndsWord rest) :
    readNumber? (integerText i.toInt ++ rest) = some (.integer i, rest) := by
  have hrange : (Int64.minValue.toInt ≤ i.toInt ∧ i.toInt ≤ Int64.maxValue.toInt) :=
    ⟨i.minValue_le_toInt, i.toInt_le⟩
  simp only [readNumber?, readNumeral?_append _ h, Option.map_some, Numeral.toNumber,
    Numeral.toInt_digits, Int64.ofInt_toInt]
  simp only [Option.isNone_none, hrange, decide_true, Bool.and_self, if_true]

theorem readInteger?_append (i : Int64) (h : EndsWord rest) :
    readInteger? (integerText i.toInt ++ rest) = some (i, rest) := by
  rw [readInteger?, readNumber?_append i h]

end Folio.Syntax
