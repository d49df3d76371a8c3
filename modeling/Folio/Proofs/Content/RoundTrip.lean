import Folio.Proofs.Content.Print
import Folio.Proofs.Syntax.RoundTrip

/-!
# Reading the instructions that were written

In a content stream there are no references, so an operand ends where its word ends. An operand and an
operator are told apart by their first byte, or by the word being one that stands for an object. Main
statement: `instructions_printContent`, a list of instructions is read back from each of its texts. A step reads one
operand (`nextInstruction?_operand`), one operator or one image; the runs over operands, entries and
instructions are by induction on their texts.
-/

namespace Folio.Content

open Syntax

variable {o : Object} {d : Dict} {blank data text rest word : Bytes} {levels fuel : Nat}
variable {operands : List Object} {i : Instruction} {image : Stream}

/-! ## Operands and operators -/

theorem Operand.readObject?_append (h : Operand o) (hw : Written o text) (hrest : EndsWord rest) :
    readObject? contentMode (text ++ rest) = some (o, rest) := by
  have hread := @readNested?_written _ _ _ none _ true h.printable (fun _ => h.not_holdsRef) hw hrest.endsIn
  rwa [h.printable.ownedBy_none] at hread

theorem nextInstruction?_blank (h : IsBlank blank) (data : Bytes) :
    nextInstruction? fuel operands (blank ++ data) = nextInstruction? fuel operands data := by
  cases fuel with
  | zero => rfl
  | succ fuel => rw [nextInstruction?, nextInstruction?, h.spacing.skipSpace_append]

/-- A word that does not look like a number stands for an object or is an operator. -/
theorem nextInstruction?_word (hne : word ≠ []) (hregular : ∀ b ∈ word, isRegular b = true)
    (hfirst : ∀ b ∈ word.head?, startsNumber b = false) (hrest : EndsWord rest) :
    nextInstruction? (fuel + 1) operands (word ++ rest) =
      (Object.ofKeyword? word).elim
        (if word = .ofAscii "BI" then
          (readInlineImage? rest).map fun p => (⟨[.stream p.1], ⟨word⟩⟩, p.2)
        else some (⟨operands, ⟨word⟩⟩, rest))
        fun o => nextInstruction? fuel (operands ++ [o]) rest := by
  have hclass (b : UInt8) (hregular : isRegular b = true) (hnumber : startsNumber b = false) :
      isWhiteSpace b = false ∧ b ≠ 37 ∧ startsOperand b = false := by
    simp_all [isRegular, isDelimiter, startsNumber, startsOperand]
  have hkeyword := keyword?_append hregular hne hrest
  obtain ⟨b, tail, rfl⟩ := List.exists_cons_of_ne_nil hne
  obtain ⟨hspace, hpercent, hstart⟩ := hclass b (hregular b (by simp)) (hfirst b rfl)
  have hdrop : (b :: (tail ++ rest)).drop (b :: tail).length = rest := by
    rw [← List.cons_append, List.drop_left]
  rw [List.cons_append] at hkeyword ⊢
  rw [nextInstruction?, skipSpace_cons hspace hpercent]
  simp only [hstart, Bool.false_eq_true, if_false, hkeyword, hdrop]
  cases Object.ofKeyword? (b :: tail) <;> rfl

theorem nextInstruction?_keyword (hword : Object.ofKeyword? word = some o) (hrest : EndsWord rest) :
    nextInstruction? (fuel + 1) operands (word ++ rest) =
      nextInstruction? fuel (operands ++ [o]) rest := by
  obtain ⟨hne, hregular, hfirst⟩ := ofKeyword?_spec hword
  rw [nextInstruction?_word hne hregular hfirst hrest, hword]
  rfl

/-- What begins with a character of its own is read as an object. -/
theorem nextInstruction?_object {b : UInt8} (hb : startsOperand b = true)
    (hread : readObject? contentMode (b :: data) = some (o, rest)) :
    nextInstruction? (fuel + 1) operands (b :: data) =
      nextInstruction? fuel (operands ++ [o]) rest := by
  have hclass : ∀ b : UInt8, startsOperand b = true → isWhiteSpace b = false ∧ b ≠ 37 := by
    decide +kernel
  obtain ⟨hspace, hpercent⟩ := hclass b hb
  rw [nextInstruction?, skipSpace_cons hspace hpercent]
  simp only [hb, if_true, hread]

theorem nextInstruction?_operand (h : Operand o) (hw : Written o text) (hrest : EndsWord rest) :
    nextInstruction? (fuel + 1) operands (text ++ rest) =
      nextInstruction? fuel (operands ++ [o]) rest := by
  have hread := h.readObject?_append hw hrest
  cases hw with
  | null => exact nextInstruction?_keyword rfl hrest
  | bool b => cases b <;> exact nextInstruction?_keyword rfl hrest
  | integer i =>
    have hclass (b : UInt8) (hb : b = 45 ∨ isDigit b = true) : startsOperand b = true := by
      rcases hb with rfl | hb
      · rfl
      · simp [startsOperand, hb]
    obtain ⟨b, tail, htext, hb⟩ := integerText_eq_cons i.toInt
    rw [htext] at hread ⊢
    exact nextInstruction?_object (hclass b hb) hread
  | ref target => exact absurd (.ref target) h.not_holdsRef
  | _ => exact nextInstruction?_object rfl hread

theorem nextInstruction?_operator (h : OperatorWord word) (hrest : EndsWord rest) :
    nextInstruction? (fuel + 1) operands (word ++ rest) = some (⟨operands, ⟨word⟩⟩, rest) := by
  have hkeyword : Object.ofKeyword? word = none := by
    simp [Object.ofKeyword?, h.not_object]
  rw [nextInstruction?_word h.ne_nil h.regular h.first hrest, hkeyword]
  exact if_neg h.not_image

theorem nextInstruction?_operands {parts : List (Object × Bytes)} (h : ∀ p ∈ parts, Operand p.1)
    (hw : ∀ p ∈ parts, Written p.1 p.2) (htext : Terminated (parts.map Prod.snd) text) :
    nextInstruction? (parts.length + fuel) operands (text ++ rest) =
      nextInstruction? fuel (operands ++ parts.map Prod.fst) rest := by
  induction parts generalizing text operands with
  | nil =>
    cases htext
    simp
  | cons p parts ih =>
    obtain ⟨hfirst, h⟩ := List.forall_mem_cons.mp h
    obtain ⟨hwFirst, hw⟩ := List.forall_mem_cons.mp hw
    cases htext with
    | cons hblank hne htext =>
      rw [List.length_cons, Nat.add_right_comm, List.append_assoc, List.append_assoc,
        nextInstruction?_operand hfirst hwFirst (hblank.endsWord_append hne _),
        nextInstruction?_blank hblank, ih h hw htext, List.append_assoc, List.map_cons,
        List.singleton_append]

/-! ## Inline images -/

theorem fullKey_eq_self {key : Name} (h : key ∉ keyAbbreviations) : fullKey key = key := by
  simp only [keyAbbreviations, List.mem_cons, List.not_mem_nil, or_false, not_or] at h
  simp [fullKey, h]

theorem fullColorSpace_eq_self {n : Name} (h : n ∉ colorSpaceAbbreviations) :
    fullColorSpace n = n := by
  simp only [colorSpaceAbbreviations, List.mem_cons, List.not_mem_nil, or_false, not_or] at h
  simp [fullColorSpace, h]

theorem fullValue_eq_self {key : Name} {value : Object} (hkey : key ∉ keyAbbreviations)
    (h : key = "ColorSpace" → FullColorSpace value) : fullValue key value = value := by
  have hcs : key ≠ "CS" := by
    rintro rfl
    exact hkey (by simp [keyAbbreviations])
  unfold fullValue
  split
  · rename_i hspace
    have hfull := h (hspace.resolve_left hcs)
    cases value with
    | name n => exact congrArg Object.name (fullColorSpace_eq_self hfull)
    | array items =>
      have hitems : ∀ o ∈ items, fullColorSpaceObject o = o := by
        intro o ho
        cases o with
        | name n => exact congrArg Object.name (fullColorSpace_eq_self (hfull n ho))
        | _ => rfl
      exact congrArg Object.array ((List.map_congr_left hitems).trans (List.map_id _))
    | _ => rfl
  · rfl

theorem readImageEntries?_end {b : UInt8} (hb : isWhiteSpace b = true) (rest : Bytes) :
    readImageEntries? (fuel + 1) d (Bytes.ofAscii "ID" ++ b :: rest) = some (d, b :: rest) := by
  have hends : EndsWord (b :: rest) := by
    rw [endsWord_cons, isRegular, hb]
    rfl
  have hkeyword : keyword? (Bytes.ofAscii "ID" ++ b :: rest) = some (.ofAscii "ID") :=
    keyword?_append (List.all_eq_true.mp rfl) (by decide) hends
  have hskip : skipSpace (Bytes.ofAscii "ID" ++ b :: rest) = Bytes.ofAscii "ID" ++ b :: rest := rfl
  rw [readImageEntries?]
  simp only [hskip, hkeyword, if_true]
  rfl

theorem readImageEntries?_blank (h : IsBlank blank) (data : Bytes) :
    readImageEntries? fuel d (blank ++ data) = readImageEntries? fuel d data := by
  cases fuel with
  | zero => rfl
  | succ fuel => rw [readImageEntries?, readImageEntries?, h.spacing.skipSpace_append]

theorem readImageEntries?_entry {e : EntryText} (h : FullEntry e.entry)
    (hw : Written e.value e.text) (hrest : EndsWord rest) :
    readImageEntries? (fuel + 1) d (e.code ++ rest) =
      readImageEntries? fuel (d.insert e.key e.value) rest := by
  have hkey : readObject? contentMode (e.code ++ rest) =
      some (.name e.key, e.blank ++ (e.text ++ rest)) := by
    have hname := @readNested?_name _ maxNesting contentMode _ _ e.token_spells
      (e.blank_isBlank.endsWord_append e.blank_ne_nil (e.text ++ rest))
    simpa [EntryText.code, readObject?] using hname
  have hvalue : readObject? contentMode (e.blank ++ (e.text ++ rest)) = some (e.value, rest) := by
    rw [readObject?, readNested?_spacing e.blank_isBlank.spacing]
    exact h.value.readObject?_append hw hrest
  have hskip : skipSpace (e.code ++ rest) = e.code ++ rest := skipSpace_opens rfl
  have hkeyword : keyword? (e.code ++ rest) = none := rfl
  have hfull : fullKey e.key = e.key ∧ fullValue e.key e.value = e.value :=
    ⟨fullKey_eq_self h.key, fullValue_eq_self h.key h.color_space⟩
  rw [readImageEntries?]
  simp only [hskip, hkeyword, reduceCtorEq, if_false, hkey, hvalue, hfull, Option.bind_eq_bind,
    Option.bind_some]

theorem readImageEntries?_entries {entries : List EntryText} {b : UInt8}
    (h : ∀ e ∈ entries, FullEntry e.entry) (hw : ∀ e ∈ entries, Written e.value e.text)
    (htext : Terminated (entries.map EntryText.code) text) (hb : isWhiteSpace b = true)
    (hfuel : entries.length < fuel) (d : Dict) :
    readImageEntries? fuel d (text ++ (Bytes.ofAscii "ID" ++ b :: rest)) =
      some ((entries.map EntryText.entry).foldl (fun d p => d.insert p.1 p.2) d, b :: rest) := by
  induction entries generalizing text fuel d with
  | nil =>
    cases htext
    obtain ⟨fuel, rfl⟩ := Nat.exists_eq_succ_of_ne_zero (Nat.ne_zero_of_lt hfuel)
    exact readImageEntries?_end hb rest
  | cons e entries ih =>
    obtain ⟨fuel, rfl⟩ := Nat.exists_eq_succ_of_ne_zero (Nat.ne_zero_of_lt hfuel)
    obtain ⟨hfirst, h⟩ := List.forall_mem_cons.mp h
    obtain ⟨hwFirst, hw⟩ := List.forall_mem_cons.mp hw
    cases htext with
    | cons hblank hne htext =>
      rw [List.append_assoc, List.append_assoc,
        readImageEntries?_entry hfirst hwFirst (hblank.endsWord_append hne _),
        readImageEntries?_blank hblank, ih h hw htext (Nat.lt_of_succ_lt_succ hfuel)]
      rfl

/-- The data are found by their length, also if they hold marks of an end. -/
theorem readSizedImage?_append (h : FullImage image) (hblank : IsBlank blank) (rest : Bytes) :
    readSizedImage? image.dict (image.data ++ (blank ++ (Bytes.ofAscii "EI" ++ rest))) =
      some (image, rest) := by
  obtain ⟨length, hget, hlength⟩ := h.length
  have hsize : image.dict.getAs? Object.nat? "Length" = some image.data.length := by
    rw [Dict.getAs?, hget, Option.bind_some, nat?_ofInt hlength]
  have hsplit : (image.data ++ (blank ++ (Bytes.ofAscii "EI" ++ rest))).splitAt? image.data.length =
      some (image.data, blank ++ (Bytes.ofAscii "EI" ++ rest)) :=
    Bytes.splitAt?_eq_some.mpr ⟨rfl, rfl⟩
  have hskip : skipSpace (Bytes.ofAscii "EI" ++ rest) = Bytes.ofAscii "EI" ++ rest := rfl
  have himage : Stream.ofData image.dict image.data = image := by
    obtain ⟨dict, data, reference⟩ := image
    exact congrArg (Stream.mk dict data) h.reference.symm
  simp only [readSizedImage?, hsize, hsplit, hblank.spacing.skipSpace_append, hskip,
    Bytes.dropTag?_append, himage, Option.bind_eq_bind, Option.bind_some]

theorem readInlineImage?_append (h : FullImage image) {entries : List EntryText} {lead : Bytes}
    {b : UInt8} (hw : ∀ e ∈ entries, Written e.value e.text)
    (hperm : (entries.map EntryText.entry).Perm image.dict.entries) (hlead : IsBlank lead)
    (htext : Terminated (entries.map EntryText.code) text) (hb : isWhiteSpace b = true)
    (hblank : IsBlank blank) (rest : Bytes) :
    readInlineImage? (lead ++ (text ++ (Bytes.ofAscii "ID" ++ b :: (image.data ++ (blank ++
      (Bytes.ofAscii "EI" ++ rest)))))) = some (image, rest) := by
  have hfull : ∀ e ∈ entries, FullEntry e.entry :=
    fun e he => h.entries _ (hperm.mem_iff.mp (List.mem_map_of_mem he))
  have hlen := htext.length_le
  rw [readInlineImage?, readImageEntries?_blank hlead,
    readImageEntries?_entries hfull hw htext hb
      (by simp only [List.length_map, List.length_append] at hlen ⊢; omega),
    Dict.foldl_insert_eq_of_perm h.increasing hperm]
  simp only [Option.bind_eq_bind, Option.bind_some, List.head?_cons, Option.any_some, hb, if_true,
    List.drop_succ_cons, List.drop_zero, readSizedImage?_append h hblank, Option.some_or]

/-! ## Instructions -/

theorem Expressible.of_written {parts : List (Object × Bytes)}
    (h : Expressible ⟨parts.map Prod.fst, ⟨word⟩⟩) (hw : ∀ p ∈ parts, Written p.1 p.2) :
    (∀ p ∈ parts, Operand p.1) ∧ OperatorWord word := by
  generalize hi : (⟨parts.map Prod.fst, ⟨word⟩⟩ : Instruction) = i at h
  cases h with
  | operation hoperands hword =>
    obtain ⟨rfl, rfl⟩ : _ ∧ _ := by simpa using hi
    exact ⟨fun p hp => hoperands _ (List.mem_map_of_mem hp), hword⟩
  | @image image _ =>
    -- a stream has no text as an operand
    have hoperands : parts.map Prod.fst = [.stream image] := congrArg Instruction.operands hi
    obtain ⟨p, hp, heq⟩ : ∃ p ∈ parts, p.1 = .stream image := by
      apply List.mem_map.mp
      rw [hoperands]
      exact List.mem_singleton_self _
    have hstream := hw p hp
    rw [heq] at hstream
    cases hstream

theorem Expressible.fullImage {operator : Name} (h : Expressible ⟨[.stream image], operator⟩) :
    FullImage image := by
  cases h with
  | operation hoperands _ => cases (hoperands _ (List.mem_singleton_self _)).printable
  | image h => exact h

theorem InstructionText.ne_nil (h : Expressible i) (hw : InstructionText i text) : text ≠ [] := by
  cases hw with
  | operation hwritten _ => simp [(h.of_written hwritten).2.ne_nil]
  | image => simp [Bytes.ofAscii]

theorem nextInstruction?_written (h : Expressible i) (hw : InstructionText i text)
    (hrest : EndsWord rest) (hfuel : text.length < fuel) :
    nextInstruction? fuel [] (text ++ rest) = some (i, rest) := by
  cases hw with
  | @operation parts text word hwritten htext =>
    obtain ⟨hoperands, hword⟩ := h.of_written hwritten
    have hlen := htext.length_le
    obtain ⟨fuel, rfl⟩ : ∃ n, fuel = parts.length + (n + 1) :=
      ⟨fuel - parts.length - 1, by simp only [List.length_map, List.length_append] at hlen hfuel; omega⟩
    rw [List.append_assoc, nextInstruction?_operands hoperands hwritten htext,
      nextInstruction?_operator hword hrest]
    rfl
  | @image image entries lead text blank b hwritten hperm hlead hne htext hb hblank =>
    obtain ⟨fuel, rfl⟩ := Nat.exists_eq_succ_of_ne_zero (Nat.ne_zero_of_lt hfuel)
    have hread := readInlineImage?_append h.fullImage hwritten hperm hlead htext hb hblank rest
    simp only [List.append_assoc, List.cons_append]
    rw [nextInstruction?_word (by decide) (List.all_eq_true.mp rfl) (fun _ hb => by cases hb; rfl)
      (hlead.endsWord_append hne _), hread]
    rfl

theorem readInstructions_blank (h : IsBlank blank) : readInstructions fuel blank = [] := by
  have hskip := h.spacing.skipSpace_append []
  rw [List.append_nil] at hskip
  cases fuel with
  | zero => rfl
  | succ fuel =>
    rw [readInstructions, nextInstruction?, hskip]
    rfl

theorem readInstructions_written {parts : List (Instruction × Bytes)}
    (h : ∀ p ∈ parts, Expressible p.1) (hw : ∀ p ∈ parts, InstructionText p.1 p.2)
    (hspaced : Spaced (parts.map Prod.snd) text) (hblank : IsBlank blank)
    (hfuel : parts.length ≤ fuel) :
    readInstructions fuel (blank ++ text) = parts.map Prod.fst := by
  induction parts generalizing text blank fuel with
  | nil =>
    cases hspaced
    rw [List.append_nil]
    exact readInstructions_blank hblank
  | cons p parts ih =>
    obtain ⟨fuel, rfl⟩ := Nat.exists_eq_succ_of_ne_zero (Nat.ne_zero_of_lt hfuel)
    obtain ⟨hfirst, h⟩ := List.forall_mem_cons.mp h
    obtain ⟨hwFirst, hw⟩ := List.forall_mem_cons.mp hw
    cases hspaced with
    | @cons _ inner after _ hinner hlast hspaced =>
      have hends : EndsWord (inner ++ after) := by
        by_cases hne : inner = []
        · have hnone := hlast hne
          rw [hnone] at hspaced
          cases hspaced
          simp [hne, EndsWord]
        · exact hinner.endsWord_append hne after
      have hlen : p.2.length < (blank ++ (p.2 ++ (inner ++ after))).length + 1 := by
        simp only [List.length_append]
        omega
      rw [readInstructions, nextInstruction?_blank hblank,
        nextInstruction?_written hfirst hwFirst hends hlen]
      exact congrArg (p.1 :: ·) (ih h hw hspaced hinner (Nat.le_of_succ_le_succ hfuel))

theorem instructions_contentText {is : List Instruction} (h : ∀ i ∈ is, Expressible i)
    (hw : ContentText is text) : instructions text = is := by
  cases hw with
  | @mk parts lead text hwritten hlead hspaced =>
    have hparts : ∀ p ∈ parts, Expressible p.1 := fun p hp => h _ (List.mem_map_of_mem hp)
    have hne : ∀ t ∈ parts.map Prod.snd, t ≠ [] := by
      intro t ht
      obtain ⟨p, hp, rfl⟩ := List.mem_map.mp ht
      exact (hwritten p hp).ne_nil (hparts p hp)
    have hlen := hspaced.length_le hne
    exact readInstructions_written hparts hwritten hspaced hlead
      (by simp only [List.length_map, List.length_append] at hlen ⊢; omega)

/-- Instructions have a text, and from each of their texts they are read back as they were. -/
theorem instructions_printContent {is : List Instruction} (h : ∀ i ∈ is, Expressible i) :
    ContentText is (printContent is) ∧ ∀ text, ContentText is text → instructions text = is := by
  constructor
  · exact contentText_printContent h
  · intro text hw
    exact instructions_contentText h hw

/-- An inline image with the mark of its end in its data. -/
def markedImage : Stream where
  dict := ⟨[("ColorSpace", .array [.name "Indexed", .name "DeviceRGB"]), ("Length", .ofInt 4)]⟩
  data := .ofAscii " EI "
  reference := none

/-- Integers before an operator named like the letter of a reference, words that stand for objects, and an
image. -/
def mixedInstructions : List Instruction := [
  ⟨[.ofInt (-5), .ofInt 0], "R"⟩,
  ⟨[.bool true, .null, .array [.name "a b"]], "Tj"⟩,
  ⟨[.stream markedImage], "BI"⟩]

theorem operand_ofInt (n : Int64) : Operand (.ofInt n) where
  printable := .integer n
  not_holdsRef := nofun

theorem operand_names (names : List Name) : Operand (.array (names.map Object.name)) where
  printable := by
    refine .array fun o ho => ?_
    obtain ⟨n, -, rfl⟩ := List.mem_map.mp ho
    exact .name n
  not_holdsRef := by
    intro h
    cases h with
    | item ho h =>
      obtain ⟨n, -, rfl⟩ := List.mem_map.mp ho
      cases h

theorem fullImage_markedImage : FullImage markedImage where
  reference := rfl
  increasing := List.pairwise_pair.mpr (by decide)
  entries := by
    simp only [markedImage, List.forall_mem_cons]
    refine ⟨⟨by decide, operand_names ["Indexed", "DeviceRGB"], rfl, fun _ => ?_⟩,
      ⟨by decide, operand_ofInt 4, rfl, fun h => absurd h (by decide)⟩, by simp⟩
    intro n hn
    simp only [List.mem_cons, Object.name.injEq, List.not_mem_nil, or_false] at hn
    rcases hn with rfl | rfl <;> decide
  length := ⟨4, rfl, by decide⟩

theorem expressible_mixedInstructions : ∀ i ∈ mixedInstructions, Expressible i := by
  simp only [mixedInstructions, List.forall_mem_cons]
  refine ⟨.operation ?_ ?_, .operation ?_ ?_, .image fullImage_markedImage, by simp⟩
  · simp only [List.forall_mem_cons]
    exact ⟨operand_ofInt _, operand_ofInt _, by simp⟩
  · exact ⟨by decide, List.all_eq_true.mp rfl, fun _ hb => by cases hb; rfl, by decide, by decide⟩
  · simp only [List.forall_mem_cons]
    exact ⟨⟨.bool true, nofun⟩, ⟨.null, nofun⟩, operand_names ["a b"], by simp⟩
  · exact ⟨by decide, List.all_eq_true.mp rfl, fun _ hb => by cases hb; rfl, by decide, by decide⟩

theorem instructions_printContent_mixedInstructions :
    (∀ i ∈ mixedInstructions, Expressible i) ∧
      instructions (printContent mixedInstructions) = mixedInstructions := by
  obtain ⟨hprint, hread⟩ := instructions_printContent expressible_mixedInstructions
  exact ⟨expressible_mixedInstructions, hread _ hprint⟩

end Folio.Content
