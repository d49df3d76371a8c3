import Folio.Proofs.Bytes
import Folio.Proofs.Syntax.Space

/-!
# Writing names, strings and words

Main statements: `readName?_append`, `LiteralText.spanLiteral?_append`, `LiteralText.ofEscaped_eq`,
`readHex?_append`, `readKeyword?_append`. The text of a name, a string or a word is read back, whatever
comes after it; where the token has no closing bracket, no regular character may come next.
-/

namespace Folio.Syntax

variable {rest bytes token word : Bytes}

/-! ## Names -/

/-- The tokens of a name. The number sign and every byte that is not regular are escaped by two digits,
and any other byte may be. -/
inductive NameText : Bytes → Bytes → Prop
  | nil : NameText [] []
  | plain {b : UInt8} {bytes token : Bytes} :
    isRegular b = true → b ≠ 35 → NameText bytes token → NameText (b :: bytes) (b :: token)
  | escaped {high low h l : UInt8} {bytes token : Bytes} :
    Bytes.hexValue? high = some h → Bytes.hexValue? low = some l → NameText bytes token →
      NameText ((h * 16 + l) :: bytes) (35 :: high :: low :: token)

theorem isRegular_of_hexValue? {b value : UInt8} (h : Bytes.hexValue? b = some value) :
    isRegular b = true := by
  have hregular : ∀ b : UInt8, (Bytes.hexValue? b).isSome = true → isRegular b = true := by
    decide +kernel
  exact hregular b (by simp [h])

theorem NameText.isRegular_of_mem (h : NameText bytes token) : ∀ b ∈ token, isRegular b = true := by
  induction h with
  | nil => simp
  | plain hb _ _ ih =>
    intro c hc
    rcases List.mem_cons.mp hc with rfl | hc
    · exact hb
    · exact ih c hc
  | escaped hhigh hlow _ ih =>
    intro c hc
    simp only [List.mem_cons] at hc
    rcases hc with rfl | rfl | rfl | hc
    · decide
    · exact isRegular_of_hexValue? hhigh
    · exact isRegular_of_hexValue? hlow
    · exact ih c hc

theorem NameText.unescape_eq (h : NameText bytes token) : Name.unescape token = bytes := by
  induction h with
  | nil => rfl
  | plain _ hb _ ih => simp [Name.unescape, hb, ih]
  | escaped hhigh hlow _ ih => simp [Name.unescape, hhigh, hlow, ih]

theorem readName?_append (h : NameText bytes token) (hrest : EndsWord rest) :
    readName? (47 :: (token ++ rest)) = some (⟨bytes⟩, rest) := by
  obtain ⟨htake, hdrop⟩ := span_append h.isRegular_of_mem hrest
  rw [readName?, htake, hdrop, Name.ofEscaped, h.unescape_eq]

/-- The token of a name in which only the bytes that need it are escaped. -/
def escapeName : Bytes → Bytes
  | [] => []
  | b :: bytes =>
    if isRegular b ∧ b ≠ 35 then b :: escapeName bytes
    else 35 :: Bytes.hexDigit (b / 16) :: Bytes.hexDigit (b % 16) :: escapeName bytes

theorem nameText_escapeName (bytes : Bytes) : NameText bytes (escapeName bytes) := by
  induction bytes with
  | nil => exact .nil
  | cons b bytes ih =>
    rw [escapeName]
    by_cases hb : isRegular b ∧ b ≠ 35
    · rw [if_pos hb]
      exact .plain hb.1 hb.2 ih
    · obtain ⟨hhigh, hlow, hvalue⟩ := Bytes.hexValue?_hexDigit b
      rw [if_neg hb]
      have h := NameText.escaped hhigh hlow ih
      rwa [hvalue] at h

/-! ## Literal strings -/

/-- The texts of a literal string. Parentheses, backslashes and carriage returns are escaped, and other
bytes may be, if a letter stands for them. -/
inductive LiteralText : Bytes → Bytes → Prop
  | nil : LiteralText [] []
  | plain {b : UInt8} {bytes text : Bytes} :
    b ≠ 13 → b ≠ 40 → b ≠ 41 → b ≠ 92 → LiteralText bytes text → LiteralText (b :: bytes) (b :: text)
  | escaped {b letter : UInt8} {bytes text : Bytes} :
    isOctalDigit letter = false → isEndOfLine letter = false → Str.escapedByte letter = b →
      LiteralText bytes text → LiteralText (b :: bytes) (92 :: letter :: text)

theorem LiteralText.spanLiteral?_append {text : Bytes} (h : LiteralText bytes text) (rest : Bytes) :
    spanLiteral? 0 (text ++ 41 :: rest) = some (text, rest) := by
  induction h with
  | nil => simp [spanLiteral?]
  | plain _ hopen hclose hslash _ ih => simp [spanLiteral?, hopen, hclose, hslash, ih]
  | escaped _ _ _ _ ih => simp [spanLiteral?, ih]

theorem LiteralText.go_eq {text : Bytes} (h : LiteralText bytes text) :
    ∀ fuel, text.length ≤ fuel → Str.unescape.go fuel text = bytes := by
  induction h with
  | nil =>
    intro fuel _
    cases fuel <;> rfl
  | plain hreturn _ _ hslash _ ih =>
    intro fuel hfuel
    simp only [List.length_cons] at hfuel
    cases fuel with
    | zero => exact absurd hfuel (Nat.not_succ_le_zero _)
    | succ fuel =>
      have hrest := ih fuel (by omega)
      simp [Str.unescape.go, hrest]
  | escaped hoctal hend hletter _ ih =>
    intro fuel hfuel
    simp only [isEndOfLine, Bool.or_eq_false_iff, beq_eq_false_iff_ne] at hend
    simp only [List.length_cons] at hfuel
    cases fuel with
    | zero => exact absurd hfuel (Nat.not_succ_le_zero _)
    | succ fuel =>
      have hrest := ih fuel (by omega)
      simp [Str.unescape.go, hoctal, hend.1, hend.2, hletter, hrest]

theorem LiteralText.ofEscaped_eq {text : Bytes} (h : LiteralText bytes text) :
    Str.ofEscaped text = ⟨.literal bytes, none⟩ := by
  rw [Str.ofEscaped, Str.unescape, h.go_eq _ (Nat.le_refl _), Str.ofBytes]

/-- The text of a literal string in which only the bytes that need it are escaped. -/
def escapeLiteral : Bytes → Bytes
  | [] => []
  | b :: bytes =>
    if b = 13 then 92 :: 114 :: escapeLiteral bytes
    else if b = 40 ∨ b = 41 ∨ b = 92 then 92 :: b :: escapeLiteral bytes
    else b :: escapeLiteral bytes

theorem literalText_escapeLiteral (bytes : Bytes) : LiteralText bytes (escapeLiteral bytes) := by
  induction bytes with
  | nil => exact .nil
  | cons b bytes ih =>
    rw [escapeLiteral]
    by_cases hreturn : b = 13
    · subst hreturn
      exact .escaped (by decide) (by decide) (by decide) ih
    · rw [if_neg hreturn]
      by_cases hspecial : b = 40 ∨ b = 41 ∨ b = 92
      · rw [if_pos hspecial]
        rcases hspecial with rfl | rfl | rfl <;> exact .escaped (by decide) (by decide) (by decide) ih
      · rw [if_neg hspecial]
        simp only [not_or] at hspecial
        exact .plain hreturn hspecial.1 hspecial.2.1 hspecial.2.2 ih

/-! ## Hexadecimal strings -/

theorem readHex?_append (mode : Mode) {digits : Bytes} (h : ∀ d ∈ digits, isHexDigit d = true)
    (rest : Bytes) :
    readHex? mode (digits ++ 62 :: rest) = some (mode.own ⟨.hex digits, none⟩, rest) := by
  have htext : ∀ d ∈ digits, isHexText d = true := by
    intro d hd
    rw [isHexText, h d hd, Bool.true_or]
  have hbracket : ∀ b ∈ (62 :: rest).head?, isHexText b = false := by
    intro b hb
    cases hb
    decide
  obtain ⟨htake, hdrop⟩ := span_append htext hbracket
  simp only [readHex?, hdrop, htake, Str.ofHex, List.filter_eq_self.mpr h]

/-! ## Words -/

theorem keyword?_append (hregular : ∀ b ∈ word, isRegular b = true) (hne : word ≠ [])
    (hrest : EndsWord rest) : keyword? (word ++ rest) = some word := by
  simp [keyword?, span_append hregular hrest, hne]

theorem readKeyword?_append {o : Object} (hword : Object.ofKeyword? word = some o)
    (hregular : ∀ b ∈ word, isRegular b = true) (hne : word ≠ []) (hrest : EndsWord rest) :
    readKeyword? (word ++ rest) = some (o, rest) := by
  simp [readKeyword?, keyword?_append hregular hne hrest, hword]

end Folio.Syntax
