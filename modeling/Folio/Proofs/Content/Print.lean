import Folio.Content.Instruction
import Folio.Proofs.Syntax.Follow

/-!
# Writing content streams

`ContentText is text` says that `text` is a way to write a list of instructions: operands and entries may be
written in any of their forms, with any white space after each of them and between the instructions, and the
entries of an inline image come in any order. `printContent is` is one such text. `Expressible` instructions
are those that can be read back.
-/

namespace Folio.Content

open Syntax

/-! ## What can be written -/

/-- Whether an object may be an operand. -/
structure Operand (o : Object) : Prop where
  printable : Printable (maxNesting + 1) o
  not_holdsRef : ¬ HoldsRef o

/-- Whether a word is an operator that comes after its operands. -/
structure OperatorWord (word : Bytes) : Prop where
  ne_nil : word ≠ []
  regular : ∀ b ∈ word, isRegular b = true
  first : ∀ b ∈ word.head?, startsNumber b = false
  not_object : word ≠ .ofAscii "true" ∧ word ≠ .ofAscii "false" ∧ word ≠ .ofAscii "null"
  not_image : word ≠ .ofAscii "BI"

/-- The abbreviated keys of inline images. -/
def keyAbbreviations : List Name := ["BPC", "CS", "D", "DP", "F", "H", "IM", "I", "L", "W"]

/-- The abbreviated names of color spaces. -/
def colorSpaceAbbreviations : List Name := ["G", "RGB", "CMYK", "I"]

/-- Whether no name of a color space is abbreviated in the value of an entry. -/
def FullColorSpace : Object → Prop
  | .name n => n ∉ colorSpaceAbbreviations
  | .array items => ∀ n, .name n ∈ items → n ∉ colorSpaceAbbreviations
  | _ => True

/-- Whether an entry of an inline image is written in full. -/
structure FullEntry (p : Name × Object) : Prop where
  key : p.1 ∉ keyAbbreviations
  value : Operand p.2
  not_null : p.2.isNull = false
  color_space : p.1 = "ColorSpace" → FullColorSpace p.2

/-- Whether an inline image is unabbreviated and states the length of its data, which may be any. -/
structure FullImage (image : Stream) : Prop where
  reference : image.reference = none
  increasing : Dict.Increasing image.dict.entries
  entries : ∀ p ∈ image.dict.entries, FullEntry p
  length : ∃ length : Int64,
    image.dict.get? "Length" = some (.ofInt length) ∧ length.toInt = image.data.length

/-- Whether an instruction is read back from its texts. -/
inductive Expressible : Instruction → Prop
  | operation {operands : List Object} {word : Bytes} :
    (∀ o ∈ operands, Operand o) → OperatorWord word → Expressible ⟨operands, ⟨word⟩⟩
  | image {image : Stream} : FullImage image → Expressible ⟨[.stream image], "BI"⟩

/-! ## The texts -/

/-- The texts of an instruction. The data of an inline image begin after a single white-space character. -/
inductive InstructionText : Instruction → Bytes → Prop
  -- the operands come with their texts
  | operation {operands : List (Object × Bytes)} {text word : Bytes} :
    (∀ p ∈ operands, Written p.1 p.2) → Terminated (operands.map Prod.snd) text →
      InstructionText ⟨operands.map Prod.fst, ⟨word⟩⟩ (text ++ word)
  | image {image : Stream} {entries : List EntryText} {lead text blank : Bytes} {b : UInt8} :
    (∀ e ∈ entries, Written e.value e.text) →
      (entries.map EntryText.entry).Perm image.dict.entries → IsBlank lead → lead ≠ [] →
      Terminated (entries.map EntryText.code) text → isWhiteSpace b = true → IsBlank blank →
      InstructionText ⟨[.stream image], "BI"⟩ (Bytes.ofAscii "BI" ++ (lead ++ (text ++
        (Bytes.ofAscii "ID" ++ b :: (image.data ++ (blank ++ Bytes.ofAscii "EI"))))))

/-- The texts of a list of instructions. -/
inductive ContentText : List Instruction → Bytes → Prop
  | mk {parts : List (Instruction × Bytes)} {lead text : Bytes} :
    (∀ p ∈ parts, InstructionText p.1 p.2) → IsBlank lead → Spaced (parts.map Prod.snd) text →
      ContentText (parts.map Prod.fst) (lead ++ text)

/-! ## One of the texts -/

/-- A text of an instruction. -/
def printInstruction (i : Instruction) : Bytes :=
  match i.operands with
  | [.stream image] =>
    Bytes.ofAscii "BI" ++ ([32] ++ (printEntries image.dict.entries ++
      (Bytes.ofAscii "ID" ++ 32 :: (image.data ++ ([32] ++ Bytes.ofAscii "EI")))))
  | operands => printItems operands ++ i.operator.bytes

/-- The instructions, each on a line. -/
def printContent : List Instruction → Bytes
  | [] => []
  | i :: is => printInstruction i ++ ([10] ++ printContent is)

theorem printInstruction_of_operands {operands : List Object} (h : ∀ o ∈ operands, Operand o)
    (operator : Name) :
    printInstruction ⟨operands, operator⟩ = printItems operands ++ operator.bytes := by
  unfold printInstruction
  split
  · rename_i image heq
    have himage : Operand (.stream image) := h _ (by simp [show operands = [.stream image] from heq])
    cases himage.printable
  · rfl

theorem instructionText_printInstruction {i : Instruction} (h : Expressible i) :
    InstructionText i (printInstruction i) := by
  cases h with
  | @operation operands word hoperands _ =>
    have hprint : ∀ o ∈ operands, Written o (print o) :=
      fun o ho => written_print (hoperands o ho).printable
    rw [printInstruction_of_operands hoperands]
    obtain ⟨parts, rfl, htexts, hwritten⟩ := exists_pairs hprint
    exact .operation hwritten (htexts ▸ terminated_printItems _)
  | @image image h =>
    have hwritten : ∀ e ∈ image.dict.entries.map entryText, Written e.value e.text :=
      written_entryText fun p hp => written_print (h.entries p hp).value.printable
    exact .image hwritten (perm_entryText _) isBlank_space (List.cons_ne_nil _ _)
      (terminated_printEntries _) rfl isBlank_space

theorem spaced_printContent (is : List Instruction) :
    Spaced (is.map printInstruction) (printContent is) := by
  induction is with
  | nil => exact .nil
  | cons i is ih => exact .cons (by simp [IsBlank, isWhiteSpace]) (by simp) ih

theorem contentText_printContent {is : List Instruction} (h : ∀ i ∈ is, Expressible i) :
    ContentText is (printContent is) := by
  obtain ⟨parts, rfl, htexts, hwritten⟩ :=
    exists_pairs fun i hi => instructionText_printInstruction (h i hi)
  exact ContentText.mk hwritten isBlank_nil (htexts ▸ spaced_printContent _)

end Folio.Content
