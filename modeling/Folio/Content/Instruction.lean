import Folio.Content.InlineImage

/-!
# Instructions

A content stream is a sequence of instructions, each an operator after its operands. Operands that
cannot be read are skipped byte by byte, and operands without an operator are dropped. An inline
image is the only operand of the operator `BI`; one that does not end ends the sequence.
-/

namespace Folio.Content

open Syntax

/-- An operator and its operands. -/
structure Instruction where
  operands : List Object
  operator : Name

namespace Instruction

/-- The operand at an index, as read by `cast`. -/
def operand? {α : Type} (cast : Object → Option α) (i : Instruction) (index : Nat) : Option α :=
  i.operands[index]?.bind cast

/-- The operands as singles, if all are numbers. -/
def numbers? (i : Instruction) : Option (List Float32) := i.operands.mapM Object.float32?

end Instruction

/-- Whether an operand that is no word begins with this character. -/
def startsOperand (b : UInt8) : Bool :=
  b == 47 || b == 46 || b == 43 || b == 45 || isDigit b || b == 91 || b == 60 || b == 40

/-- The next instruction and the data after it, given the operands already read; in at most `fuel`
steps. -/
def nextInstruction? : Nat → List Object → Bytes → Option (Instruction × Bytes)
  | 0, _, _ => none
  | fuel + 1, operands, data =>
    match skipSpace data with
    | [] => none
    | b :: rest =>
      let data := b :: rest
      if startsOperand b then
        match readObject? contentMode data with
        | some (o, data) => nextInstruction? fuel (operands ++ [o]) data
        | none => nextInstruction? fuel operands rest
      else
        match keyword? data with
        | none => nextInstruction? fuel operands rest
        | some word =>
          let data := data.drop word.length
          match Object.ofKeyword? word with
          | some o => nextInstruction? fuel (operands ++ [o]) data
          | none =>
            if word = .ofAscii "BI" then
              (readInlineImage? data).map fun (image, data) => (⟨[.stream image], ⟨word⟩⟩, data)
            else some (⟨operands, ⟨word⟩⟩, data)

/-- The instructions of a content stream, at most `fuel` of them. -/
def readInstructions : Nat → Bytes → List Instruction
  | 0, _ => []
  | fuel + 1, data =>
    match nextInstruction? (data.length + 1) [] data with
    | some (i, data) => i :: readInstructions fuel data
    | none => []

/-- The instructions of a content stream. -/
def instructions (data : Bytes) : List Instruction := readInstructions data.length data

end Folio.Content
