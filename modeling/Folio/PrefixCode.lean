/-!
# Canonical prefix codes

A canonical code is given by the length of each symbol's code word: words of one length are
consecutive, in the order of the symbols, and shorter words come before longer ones. Such a code is
read bit by bit.
-/

namespace Folio

/-- A canonical prefix code. -/
structure PrefixCode where
  /-- How many words there are of each length, from one bit on. -/
  counts : List Nat
  /-- The symbols in the order of their words. -/
  symbols : Array Nat

namespace PrefixCode

/-- The largest length of a code word. -/
def maxLength : Nat := 15

/-- The code in which the symbol `i` has a word of `lengths[i]` bits, or none if that is zero. -/
def ofLengths (lengths : List Nat) : PrefixCode :=
  let sized := lengths.zipIdx
  let words (n : Nat) := (sized.filter fun (length, _) => length = n).map (·.2)
  let byLength := (List.range maxLength).map fun n => words (n + 1)
  let used := (byLength.reverse.dropWhile List.isEmpty).reverse
  ⟨used.map List.length, used.flatten.toArray⟩

/-- How many words of the last length are left over, negative if there are too many. -/
def slack (c : PrefixCode) : Int :=
  c.counts.foldl (fun (left : Int) (count : Nat) => 2 * left - count) 1

/-- The number of bits of the longest word. -/
def longest (c : PrefixCode) : Nat := c.counts.length

/-- Whether every sequence of bits starts with a word, or the code has no words. -/
def isComplete (c : PrefixCode) : Bool := c.longest == 0 || c.slack == 0

/-- Whether the code is complete or has a single word of one bit. -/
def isUsable (c : PrefixCode) : Bool := c.isComplete || (c.longest == 1 && 0 < c.slack)

/-- The rank among the code's words of the word that some bits start with, and the bits after it.
`counts` are those of the lengths to come; `first` is the first word of the next length, `index` its
rank, and `word` twice the bits so far. -/
def wordRank? : List Nat → Nat → Nat → Nat → List Bool → Option (Nat × List Bool)
  | count :: counts, word, first, index, b :: bits =>
    let word := word + b.toNat
    if word < first + count then some (index + (word - first), bits)
    else wordRank? counts (word * 2) ((first + count) * 2) (index + count) bits
  | _, _, _, _, _ => none

/-- The symbol of the word that some bits start with, and the bits after it. -/
def read? (c : PrefixCode) (bits : List Bool) : Option (Nat × List Bool) := do
  let (rank, rest) ← wordRank? c.counts 0 0 0 bits
  let symbol ← c.symbols[rank]?
  some (symbol, rest)

end PrefixCode

end Folio
