import Folio.Proofs.Syntax.Print

/-!
# What may follow an object

An object's text is read as that object only if what follows does not continue it: no regular character goes
on with a word, no generation and letter make a reference of an integer, no stream keyword makes a stream of
a dictionary. Main statement: `Written.endsBefore`, an object ends before any other that white space
separates from it.
-/

namespace Folio.Syntax

variable {o : Object} {blank rest text : Bytes} {b : UInt8}

/-- Whether an object ends before some data. -/
structure Ends (rest : Bytes) : Prop where
  word : EndsWord rest
  -- an integer that comes before is no generation
  letter : nextByte? rest ≠ some 82
  -- an integer that comes before is no number of a reference
  generation : ∀ data i after, dropBlanks? rest = some data → readInteger? data = some (i, after) →
    nextByte? after ≠ some 82
  dictionary : Bytes.dropTag? (.ofAscii "stream") (skipSpace rest) = none

/-- Whether an object ends before some data in a content stream or elsewhere. In a content stream, in which
there are neither references nor streams, it is enough that its last word ends. -/
structure EndsIn (inContent : Bool) (rest : Bytes) : Prop where
  word : EndsWord rest
  ends : inContent = false → Ends rest

theorem Ends.endsIn {inContent : Bool} (h : Ends rest) : EndsIn inContent rest := ⟨h.word, fun _ => h⟩

theorem EndsWord.endsIn (h : EndsWord rest) : EndsIn true rest := ⟨h, nofun⟩

theorem ends_of_isBlank (h : IsBlank blank) : Ends blank where
  word := by
    have hword : ∀ b : UInt8, isWhiteSpace b = true → isRegular b = false := by decide +kernel
    intro b hb
    exact hword b (h b (List.mem_of_mem_head? hb))
  letter := by simp [h.nextByte?_eq_none]
  generation := by
    intro data i after hdata hinteger
    rw [dropBlanks?_eq_some hdata, List.dropWhile_eq_nil_iff.mpr h] at hinteger
    cases hinteger
  dictionary := by
    have hskip := h.spacing.skipSpace_append []
    rw [List.append_nil] at hskip
    rw [hskip]
    rfl

/-- An object ends before a byte that starts neither a comment, nor the letter of a reference, nor the
keyword of a stream. -/
theorem ends_append_cons (hblank : IsBlank blank) (hword : EndsWord (blank ++ b :: rest))
    (hspace : isWhiteSpace b = false) (hpercent : b ≠ 37) (hletter : b ≠ 82) (hstream : b ≠ 115)
    (hinteger : ∀ i after, readInteger? (b :: rest) = some (i, after) → nextByte? after ≠ some 82) :
    Ends (blank ++ b :: rest) where
  word := hword
  letter := by
    rw [hblank.nextByte?_append, nextByte?_cons hspace]
    simpa using hletter
  generation := by
    intro data i after hdata hread
    rw [dropBlanks?_eq_some hdata, hblank.dropWhile_append,
      List.dropWhile_cons_of_neg (by simp [hspace])] at hread
    exact hinteger i after hread
  dictionary := by
    rw [hblank.spacing.skipSpace_append, skipSpace_cons hspace hpercent]
    exact if_neg (Ne.symm hstream)

/-- Whether a byte can be the first one of a number. -/
def startsNumber (b : UInt8) : Bool := b == 43 || b == 45 || b == 46 || isDigit b

theorem readInteger?_eq_none (h : startsNumber b = false) : readInteger? (b :: rest) = none := by
  simp only [startsNumber, Bool.or_eq_false_iff, beq_eq_false_iff_ne] at h
  obtain ⟨⟨⟨hplus, hminus⟩, hpoint⟩, hdigit⟩ := h
  have hsign : splitSign (b :: rest) = (false, b :: rest) := by simp [splitSign, hplus, hminus]
  have hnumeral : readNumeral? (b :: rest) = none := by simp [readNumeral?, hsign, hdigit, hpoint]
  simp [readInteger?, readNumber?, hnumeral]

/-- Whether a byte can be the first one of an object's text. -/
def opensObject (b : UInt8) : Bool :=
  b == 40 || b == 45 || b == 47 || b == 60 || b == 91 || b == 102 || b == 110 || b == 116 || isDigit b

theorem opensObject_spec (h : opensObject b = true) :
    isWhiteSpace b = false ∧ b ≠ 37 ∧ b ≠ 62 ∧ b ≠ 82 ∧ b ≠ 93 ∧ b ≠ 115 := by
  revert b
  decide +kernel

theorem skipSpace_opens (h : opensObject b = true) : skipSpace (b :: rest) = b :: rest := by
  obtain ⟨hspace, hpercent, -⟩ := opensObject_spec h
  exact skipSpace_cons hspace hpercent

theorem opensObject_of_number (h : b = 45 ∨ isDigit b = true) : opensObject b = true := by
  revert b
  decide +kernel

theorem integerText_eq_cons (i : Int) :
    ∃ b tail, integerText i = b :: tail ∧ (b = 45 ∨ isDigit b = true) := by
  cases i with
  | ofNat n =>
    obtain ⟨b, tail, hdigits⟩ := List.exists_cons_of_ne_nil (digits_ne_nil n)
    exact ⟨b, tail, hdigits, .inr (isDigit_of_mem_digits n b (by simp [hdigits]))⟩
  | negSucc n => exact ⟨45, _, integerText_negSucc n, .inl rfl⟩

/-- The text of a reference. -/
theorem ofAscii_text (target : Ref) : Bytes.ofAscii target.text =
    integerText target.number.toInt ++ (32 :: (integerText target.generation.toInt ++ [32, 82])) := by
  have htext : target.text = toString target.number.toInt ++
      (" " ++ (toString target.generation.toInt ++ " R")) := by
    simp only [Ref.text, String.append_assoc]
    rfl
  rw [htext, ofAscii_append, ofAscii_append, ofAscii_append]
  rfl

theorem readInteger?_int32 (n : Int32) (h : EndsWord rest) :
    readInteger? (integerText n.toInt ++ rest) = some (n.toInt64, rest) := by
  rw [← Int32.toInt_toInt64]
  exact readInteger?_append n.toInt64 h

theorem Written.eq_cons (h : Written o text) :
    ∃ b tail, text = b :: tail ∧ opensObject b = true := by
  cases h with
  | null => exact ⟨110, _, rfl, rfl⟩
  | bool b =>
    cases b
    · exact ⟨102, _, rfl, rfl⟩
    · exact ⟨116, _, rfl, rfl⟩
  | integer i =>
    obtain ⟨b, tail, htext, hb⟩ := integerText_eq_cons i.toInt
    exact ⟨b, tail, htext, opensObject_of_number hb⟩
  | literal _ => exact ⟨40, _, rfl, rfl⟩
  | hex _ => exact ⟨60, _, rfl, rfl⟩
  | name _ => exact ⟨47, _, rfl, rfl⟩
  | ref target =>
    obtain ⟨b, tail, htext, hb⟩ := integerText_eq_cons target.number.toInt
    exact ⟨b, _, by rw [ofAscii_text, htext, List.cons_append], opensObject_of_number hb⟩
  | array _ _ _ => exact ⟨91, _, rfl, rfl⟩
  | dict _ _ _ _ => exact ⟨60, _, rfl, rfl⟩

/-- No generation and letter come after an integer that an object's text starts with. -/
theorem Written.nextByte?_of_readInteger? (h : Written o text) (hrest : Ends rest) {i : Int64}
    {after : Bytes} (hread : readInteger? (text ++ rest) = some (i, after)) :
    nextByte? after ≠ some 82 := by
  cases h with
  | integer j =>
    rw [readInteger?_append j hrest.word] at hread
    cases hread
    exact hrest.letter
  | ref target =>
    obtain ⟨b, tail, htext, hb⟩ := integerText_eq_cons target.generation.toInt
    obtain ⟨hspace, -, -, hletter, -⟩ := opensObject_spec (opensObject_of_number hb)
    rw [ofAscii_text, List.append_assoc, List.cons_append,
      readInteger?_int32 _ (endsWord_cons.mpr (by decide))] at hread
    cases hread
    have hskip := isBlank_space.nextByte?_append (b :: (tail ++ [32, 82] ++ rest))
    rw [htext]
    simp only [List.cons_append, List.nil_append] at hskip ⊢
    rw [hskip, nextByte?_cons hspace]
    simpa using hletter
  | bool b => cases b <;> cases hread.symm.trans (readInteger?_eq_none rfl)
  | _ => cases hread.symm.trans (readInteger?_eq_none rfl)

theorem ends_append_delimiter (hblank : IsBlank blank) (hb : isDelimiter b = true) (hpercent : b ≠ 37)
    (rest : Bytes) : Ends (blank ++ b :: rest) := by
  have hdelimiter : ∀ b : UInt8, isDelimiter b = true → isWhiteSpace b = false ∧
      isRegular b = false ∧ b ≠ 82 ∧ b ≠ 115 ∧ startsNumber b = false := by decide +kernel
  obtain ⟨hspace, hregular, hletter, hstream, hnumber⟩ := hdelimiter b hb
  have hword : EndsWord (blank ++ b :: rest) := by
    by_cases hne : blank = []
    · rw [hne]
      exact endsWord_cons.mpr hregular
    · exact hblank.endsWord_append hne _
  refine ends_append_cons hblank hword hspace hpercent hletter hstream fun i after hread => ?_
  rw [readInteger?_eq_none hnumber] at hread
  cases hread

/-- Whether an object ends before white space and a text, if the text itself ends. -/
def EndsBefore (text : Bytes) : Prop :=
  ∀ blank rest, IsBlank blank → blank ≠ [] → Ends rest → Ends (blank ++ (text ++ rest))

theorem Written.endsBefore (h : Written o text) : EndsBefore text := by
  intro blank rest hblank hne hrest
  obtain ⟨b, tail, rfl, hb⟩ := h.eq_cons
  obtain ⟨hspace, hpercent, -, hletter, -, hstream⟩ := opensObject_spec hb
  exact ends_append_cons hblank (hblank.endsWord_append hne _) hspace hpercent hletter hstream
    fun _ _ hread => h.nextByte?_of_readInteger? hrest hread

theorem EntryText.endsBefore (e : EntryText) : EndsBefore e.code := by
  intro blank rest hblank _ _
  exact ends_append_delimiter hblank (by decide) (by decide) _

theorem Spaced.ends_append {texts : List Bytes} (h : Spaced texts text)
    (htexts : ∀ t ∈ texts, EndsBefore t) (hrest : ∀ blank, IsBlank blank → Ends (blank ++ rest)) :
    ∀ blank, IsBlank blank → (blank = [] → texts = []) → Ends (blank ++ (text ++ rest)) := by
  induction h with
  | nil =>
    intro blank hblank _
    exact hrest blank hblank
  | cons hinner hlast _ ih =>
    intro blank hblank hne
    obtain ⟨hfirst, htexts⟩ := List.forall_mem_cons.mp htexts
    have hends := hfirst blank _ hblank (fun h => absurd (hne h) (List.cons_ne_nil _ _))
      (ih htexts _ hinner hlast)
    simpa using hends

end Folio.Syntax
