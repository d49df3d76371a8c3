import Folio.Bits
import Folio.Fax.Basic

/-!
# Code words of fax data

The lengths of runs and the modes of two-dimensional coding are written as words of prefix codes.
A code is a tree with a branch for each bit, and a word is read by following its bits to a leaf.
-/

namespace Folio.Fax

/-- A prefix code as a tree of bits. -/
inductive CodeTree (α : Type) where
  /-- No word goes on here. -/
  | empty
  | leaf (value : α)
  | node (zero one : CodeTree α)

namespace CodeTree

variable {α : Type}

/-- The tree with a word added. -/
def insert (value : α) : List Bool → CodeTree α → CodeTree α
  | [], _ => leaf value
  | false :: word, node zero one => node (zero.insert value word) one
  | true :: word, node zero one => node zero (one.insert value word)
  | false :: word, _ => node (empty.insert value word) empty
  | true :: word, _ => node empty (empty.insert value word)
termination_by structural word => word

/-- The tree of some words with their values. -/
def ofWords (words : List (List Bool × α)) : CodeTree α :=
  words.foldl (fun t (word, value) => t.insert value word) empty

/-- The branch that a bit leads to. -/
def branch (t : CodeTree α) (b : Bool) : CodeTree α :=
  match t, b with
  | node zero _, false => zero
  | node _ one, true => one
  | _, _ => empty

/-- The value of the word that goes on from a tree with the next bits, and the bits after it. -/
def read : CodeTree α → List Bool → Except Error (α × List Bool)
  | _, [] => .error .unexpectedEnd
  | t, b :: bits =>
    match t.branch b with
    | empty => .error .invalidCode
    | leaf value => .ok (value, bits)
    | t => t.read bits

end CodeTree

/-- The code words of white runs of 0 to 63 pixels. -/
def whiteShort : List (Nat × Nat) := [
  (8, 0b00110101), (6, 0b000111), (4, 0b0111), (4, 0b1000), (4, 0b1011), (4, 0b1100), (4, 0b1110),
  (4, 0b1111), (5, 0b10011), (5, 0b10100), (5, 0b00111), (5, 0b01000), (6, 0b001000),
  (6, 0b000011), (6, 0b110100), (6, 0b110101), (6, 0b101010), (6, 0b101011), (7, 0b0100111),
  (7, 0b0001100), (7, 0b0001000), (7, 0b0010111), (7, 0b0000011), (7, 0b0000100), (7, 0b0101000),
  (7, 0b0101011), (7, 0b0010011), (7, 0b0100100), (7, 0b0011000), (8, 0b00000010),
  (8, 0b00000011), (8, 0b00011010), (8, 0b00011011), (8, 0b00010010), (8, 0b00010011),
  (8, 0b00010100), (8, 0b00010101), (8, 0b00010110), (8, 0b00010111), (8, 0b00101000),
  (8, 0b00101001), (8, 0b00101010), (8, 0b00101011), (8, 0b00101100), (8, 0b00101101),
  (8, 0b00000100), (8, 0b00000101), (8, 0b00001010), (8, 0b00001011), (8, 0b01010010),
  (8, 0b01010011), (8, 0b01010100), (8, 0b01010101), (8, 0b00100100), (8, 0b00100101),
  (8, 0b01011000), (8, 0b01011001), (8, 0b01011010), (8, 0b01011011), (8, 0b01001010),
  (8, 0b01001011), (8, 0b00110010), (8, 0b00110011), (8, 0b00110100)]

/-- The code words of white runs of 64 to 1728 pixels in steps of 64. -/
def whiteLong : List (Nat × Nat) := [
  (5, 0b11011), (5, 0b10010), (6, 0b010111), (7, 0b0110111), (8, 0b00110110), (8, 0b00110111),
  (8, 0b01100100), (8, 0b01100101), (8, 0b01101000), (8, 0b01100111), (9, 0b011001100),
  (9, 0b011001101), (9, 0b011010010), (9, 0b011010011), (9, 0b011010100), (9, 0b011010101),
  (9, 0b011010110), (9, 0b011010111), (9, 0b011011000), (9, 0b011011001), (9, 0b011011010),
  (9, 0b011011011), (9, 0b010011000), (9, 0b010011001), (9, 0b010011010), (6, 0b011000),
  (9, 0b010011011)]

/-- The code words of black runs of 0 to 63 pixels. -/
def blackShort : List (Nat × Nat) := [
  (10, 0b0000110111), (3, 0b010), (2, 0b11), (2, 0b10), (3, 0b011), (4, 0b0011), (4, 0b0010),
  (5, 0b00011), (6, 0b000101), (6, 0b000100), (7, 0b0000100), (7, 0b0000101), (7, 0b0000111),
  (8, 0b00000100), (8, 0b00000111), (9, 0b000011000), (10, 0b0000010111), (10, 0b0000011000),
  (10, 0b0000001000), (11, 0b00001100111), (11, 0b00001101000), (11, 0b00001101100),
  (11, 0b00000110111), (11, 0b00000101000), (11, 0b00000010111), (11, 0b00000011000),
  (12, 0b000011001010), (12, 0b000011001011), (12, 0b000011001100), (12, 0b000011001101),
  (12, 0b000001101000), (12, 0b000001101001), (12, 0b000001101010), (12, 0b000001101011),
  (12, 0b000011010010), (12, 0b000011010011), (12, 0b000011010100), (12, 0b000011010101),
  (12, 0b000011010110), (12, 0b000011010111), (12, 0b000001101100), (12, 0b000001101101),
  (12, 0b000011011010), (12, 0b000011011011), (12, 0b000001010100), (12, 0b000001010101),
  (12, 0b000001010110), (12, 0b000001010111), (12, 0b000001100100), (12, 0b000001100101),
  (12, 0b000001010010), (12, 0b000001010011), (12, 0b000000100100), (12, 0b000000110111),
  (12, 0b000000111000), (12, 0b000000100111), (12, 0b000000101000), (12, 0b000001011000),
  (12, 0b000001011001), (12, 0b000000101011), (12, 0b000000101100), (12, 0b000001011010),
  (12, 0b000001100110), (12, 0b000001100111)]

/-- The code words of black runs of 64 to 1728 pixels in steps of 64. -/
def blackLong : List (Nat × Nat) := [
  (10, 0b0000001111), (12, 0b000011001000), (12, 0b000011001001), (12, 0b000001011011),
  (12, 0b000000110011), (12, 0b000000110100), (12, 0b000000110101), (13, 0b0000001101100),
  (13, 0b0000001101101), (13, 0b0000001001010), (13, 0b0000001001011), (13, 0b0000001001100),
  (13, 0b0000001001101), (13, 0b0000001110010), (13, 0b0000001110011), (13, 0b0000001110100),
  (13, 0b0000001110101), (13, 0b0000001110110), (13, 0b0000001110111), (13, 0b0000001010010),
  (13, 0b0000001010011), (13, 0b0000001010100), (13, 0b0000001010101), (13, 0b0000001011010),
  (13, 0b0000001011011), (13, 0b0000001100100), (13, 0b0000001100101)]

/-- The code words of runs of either color of 1792 to 2560 pixels in steps of 64. -/
def commonLong : List (Nat × Nat) := [
  (11, 0b00000001000), (11, 0b00000001100), (11, 0b00000001101), (12, 0b000000010010),
  (12, 0b000000010011), (12, 0b000000010100), (12, 0b000000010101), (12, 0b000000010110),
  (12, 0b000000010111), (12, 0b000000011100), (12, 0b000000011101), (12, 0b000000011110),
  (12, 0b000000011111)]

/-- The bits of a word that is given by its length and its value as a number. -/
def wordBits (word : Nat × Nat) : List Bool := Bits.ofNat word.1 word.2

/-- The words of a table together with the lengths that they stand for, which begin at `first` and
increase in steps of `step`. -/
def runWords (first step : Nat) (table : List (Nat × Nat)) : List (List Bool × Nat) :=
  table.zipIdx.map fun (word, i) => (wordBits word, first + i * step)

/-- The words of the runs of one color. -/
def colorWords (white : Bool) : List (List Bool × Nat) :=
  runWords 0 1 (if white then whiteShort else blackShort) ++
    runWords 64 64 (if white then whiteLong else blackLong) ++ runWords 1792 64 commonLong

/-- The code of white runs. -/
def whiteTree : CodeTree Nat := .ofWords (colorWords true)

/-- The code of black runs. -/
def blackTree : CodeTree Nat := .ofWords (colorWords false)

/-- The code of the runs of one color. -/
def runTree (white : Bool) : CodeTree Nat := if white then whiteTree else blackTree

/-- Reads on in a run: from a branch of its code, with the pixels that its words stood for so far.
A run is any number of words for 64 pixels or more and a last word for fewer. -/
def readRunFrom (root : CodeTree Nat) :
    CodeTree Nat → Nat → List Bool → Except Error (Nat × List Bool)
  | _, _, [] => .error .unexpectedEnd
  | t, run, b :: bits =>
    match t.branch b with
    | .empty => .error .invalidCode
    | .leaf length =>
      if length < 64 then .ok (run + length, bits) else readRunFrom root root (run + length) bits
    | t => readRunFrom root t run bits

/-- The length of the next run of one color and the bits after it. -/
def readRun (white : Bool) (bits : List Bool) : Except Error (Nat × List Bool) :=
  readRunFrom (runTree white) (runTree white) 0 bits

/-- How the next change of color on a row is coded with respect to the row above. -/
inductive Mode where
  /-- A run above ends before the current one does. -/
  | pass
  /-- Two runs follow. -/
  | horizontal
  /-- The change lies at a distance from the one above. -/
  | vertical (offset : Int)
deriving DecidableEq

/-- The code words of the modes. -/
def modeWords : List (List Bool × Mode) := [
  (wordBits (4, 0b0001), .pass), (wordBits (3, 0b001), .horizontal),
  (wordBits (1, 0b1), .vertical 0), (wordBits (3, 0b011), .vertical 1),
  (wordBits (6, 0b000011), .vertical 2), (wordBits (7, 0b0000011), .vertical 3),
  (wordBits (3, 0b010), .vertical (-1)), (wordBits (6, 0b000010), .vertical (-2)),
  (wordBits (7, 0b0000010), .vertical (-3))]

/-- The code of the modes. -/
def modeTree : CodeTree Mode := .ofWords modeWords

/-- The bits after an end-of-line word, which is a one after eleven zeros or more, given the zeros
already passed. -/
def skipEndOfLine? : Nat → List Bool → Option (List Bool)
  | _, [] => none
  | zeros, false :: bits => skipEndOfLine? (zeros + 1) bits
  | zeros, true :: bits => if 11 ≤ zeros then some bits else none

/-- The bits of an end-of-line word after a tag bit that is one. -/
def taggedEndOfLine : List Bool := wordBits (13, 0b1000000000001)

/-- The number of end-of-line words that follow each other, at most `fuel`, and the bits after
them. Where the words are tagged, the tags between them are skipped. -/
def skipEndOfLines (tagged : Bool) : Nat → List Bool → Nat × List Bool
  | 0, bits => (0, bits)
  | fuel + 1, bits =>
    match skipEndOfLine? 0 bits with
    | none => (0, bits)
    | some bits =>
      let bits := if tagged && bits.take 13 == taggedEndOfLine then bits.drop 1 else bits
      let (count, bits) := skipEndOfLines tagged fuel bits
      (count + 1, bits)

end Folio.Fax
