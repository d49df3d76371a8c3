import Folio.Bytes
import Folio.PrefixCode

/-!
# Inflating compressed data

Compressed data is a sequence of bits, read from the lowest bit of each byte on, that consists of
blocks: stored bytes, or literals and repetitions of earlier output in prefix codes. Reading stops
at the end of the last block, at the end of the data, or at an error; the output so far is kept in
each case.
-/

namespace Folio.Filter.Inflate

/-- Why reading stopped before the end. -/
inductive Fault where
  | truncated
  | corrupt
  /-- A repetition goes back beyond the start of the output, which is noticed only when its first
  byte is fetched. -/
  | beyondStart
deriving DecidableEq

/-- The compressed data, the position of the next bit, and the output so far. -/
structure State where
  data : Array UInt8
  position : Nat := 0
  out : Array UInt8 := #[]

/-- A step of reading, which may fail and keeps the output in any case. -/
abbrev Reader := ExceptT Fault (StateM State)

/-- The next bit. -/
def bit : Reader Nat := do
  let s ← get
  match s.data[s.position / 8]? with
  | some b =>
    set { s with position := s.position + 1 }
    pure (b.toNat >>> (s.position % 8) % 2)
  | none => throw .truncated

/-- The next `count` bits as a number, the lowest first. -/
def bits : Nat → Reader Nat
  | 0 => pure 0
  | count + 1 => do
    let low ← bit
    let high ← bits count
    pure (low + 2 * high)

/-- The rank among the code's words of the next word, if it has no more than `counts.length` bits.
`first` is the first word of the current length and `index` its rank. -/
def wordIndex (counts : List Nat) (word first index : Nat) : Reader (Option Nat) :=
  match counts with
  | [] => pure none
  | count :: rest => do
    let word := word + (← bit)
    if word < first + count then pure (some (index + (word - first)))
    else wordIndex rest (word * 2) ((first + count) * 2) (index + count)

/-- The symbol of the next code word, or nothing if no word fits. In a code without words no bit
fits. -/
def symbol? (c : PrefixCode) : Reader (Option Nat) := do
  if c.counts.isEmpty then
    let _ ← bit
    pure none
  else
    let index ← wordIndex c.counts 0 0 0
    pure (index.bind fun i => c.symbols[i]?)

/-- The symbol of the next code word. -/
def symbol (c : PrefixCode) : Reader Nat := do
  match ← symbol? c with
  | some s => pure s
  | none => throw .corrupt

/-- Puts a byte out. -/
def emit (b : UInt8) : Reader Unit := modify fun s => { s with out := s.out.push b }

/-- Repeats `count` bytes from `distance` bytes back. -/
def repeatBack (distance : Nat) : Nat → Reader Unit
  | 0 => pure ()
  | count + 1 => do
    let s ← get
    emit (s.out.getD (s.out.size - distance) 0)
    repeatBack distance count

/-- The smallest lengths of repetitions and their numbers of extra bits. -/
def lengthTable : Array (Nat × Nat) := #[
  (3, 0), (4, 0), (5, 0), (6, 0), (7, 0), (8, 0), (9, 0), (10, 0), (11, 1), (13, 1), (15, 1),
  (17, 1), (19, 2), (23, 2), (27, 2), (31, 2), (35, 3), (43, 3), (51, 3), (59, 3), (67, 4),
  (83, 4), (99, 4), (115, 4), (131, 5), (163, 5), (195, 5), (227, 5), (258, 0)]

/-- The smallest distances of repetitions and their numbers of extra bits. -/
def distanceTable : Array (Nat × Nat) := #[
  (1, 0), (2, 0), (3, 0), (4, 0), (5, 1), (7, 1), (9, 2), (13, 2), (17, 3), (25, 3), (33, 4),
  (49, 4), (65, 5), (97, 5), (129, 6), (193, 6), (257, 7), (385, 7), (513, 8), (769, 8),
  (1025, 9), (1537, 9), (2049, 10), (3073, 10), (4097, 11), (6145, 11), (8193, 12), (12289, 12),
  (16385, 13), (24577, 13)]

/-- The number that an entry of a table and the extra bits after its symbol stand for. -/
def tableValue (table : Array (Nat × Nat)) (index : Nat) : Reader Nat := do
  match table[index]? with
  | some (smallest, extra) => do
    let more ← bits extra
    pure (smallest + more)
  | none => throw .corrupt

/-- The literals and repetitions of a block up to its end, at most `fuel` of them. -/
def codedBlock (literals distances : PrefixCode) : Nat → Reader Unit
  | 0 => throw .truncated
  | fuel + 1 => do
    let s ← symbol literals
    if s < 256 then
      emit s.toUInt8
      codedBlock literals distances fuel
    else if s = 256 then pure ()
    else
      let length ← tableValue lengthTable (s - 257)
      let distance ← tableValue distanceTable (← symbol distances)
      if (← get).out.size < distance then throw .beyondStart
      repeatBack distance length
      codedBlock literals distances fuel

/-- The bytes of a stored block, which start at a whole byte. -/
def storedBytes : Nat → Reader Unit
  | 0 => pure ()
  | count + 1 => do
    let b ← bits 8
    emit b.toUInt8
    storedBytes count

/-- A stored block: its length, the complement of the length, and the bytes. -/
def storedBlock : Reader Unit := do
  modify fun s => { s with position := (s.position + 7) / 8 * 8 }
  let length ← bits 16
  let complement ← bits 16
  if length + complement ≠ 0xFFFF then throw .corrupt
  storedBytes length

/-- The code of literals and lengths where a block states none. -/
def fixedLiterals : PrefixCode :=
  .ofLengths (List.replicate 144 8 ++ List.replicate 112 9 ++ List.replicate 24 7 ++
    List.replicate 8 8)

/-- The code of distances where a block states none. -/
def fixedDistances : PrefixCode := .ofLengths (List.replicate 32 5)

/-- The order in which the lengths of the code for code lengths are stated. -/
def lengthOrder : List Nat := [16, 17, 18, 0, 8, 7, 9, 6, 10, 5, 11, 4, 12, 3, 13, 2, 14, 1, 15]

/-- The lengths that the first `count` symbols of `lengthOrder` have, each with its symbol. -/
def statedLengths : List Nat → Reader (List (Nat × Nat))
  | [] => pure []
  | s :: rest => do
    let length ← bits 3
    let others ← statedLengths rest
    pure ((s, length) :: others)

/-- Code lengths up to `total` of them, after those already read; at most `fuel` steps. -/
def codeLengths (c : PrefixCode) (total : Nat) : Nat → List Nat → Reader (List Nat)
  | 0, lengths => pure lengths
  | fuel + 1, lengths => do
    if total ≤ lengths.length then pure lengths
    else
      let s := (← symbol? c).getD 0
      if s < 16 then codeLengths c total fuel (lengths ++ [s])
      else
        let (value, smallest, extra) ←
          if s = 16 then
            match lengths.getLast? with
            | some last => pure (last, 3, 2)
            | none => do
              let _ ← bits 2
              throw .corrupt
          else if s = 17 then pure (0, 3, 3)
          else pure (0, 11, 7)
        let count := smallest + (← bits extra)
        if total < lengths.length + count then throw .corrupt
        codeLengths c total fuel (lengths ++ List.replicate count value)

/-- The codes that a block states for its literals and its distances. -/
def statedCodes : Reader (PrefixCode × PrefixCode) := do
  let literals := (← bits 5) + 257
  let distances := (← bits 5) + 1
  let count := (← bits 4) + 4
  if literals > 286 ∨ distances > 30 then throw .corrupt
  let stated ← statedLengths (lengthOrder.take count)
  let lengthCode := PrefixCode.ofLengths
    ((List.range 19).map fun s => ((stated.find? fun (t, _) => t = s).map (·.2)).getD 0)
  if !lengthCode.isComplete then throw .corrupt
  let lengths ← codeLengths lengthCode (literals + distances) (literals + distances) []
  if lengths.getD 256 0 = 0 then throw .corrupt
  let literalCode := PrefixCode.ofLengths (lengths.take literals)
  if !literalCode.isUsable then throw .corrupt
  let distanceCode := PrefixCode.ofLengths (lengths.drop literals)
  if !distanceCode.isUsable then throw .corrupt
  pure (literalCode, distanceCode)

/-- The blocks up to the last one, at most `fuel` of them. -/
def blocks : Nat → Reader Unit
  | 0 => throw .truncated
  | fuel + 1 => do
    let last ← bit
    let kind ← bits 2
    let size := (← get).data.size * 8
    if kind = 0 then storedBlock
    else if kind = 1 then codedBlock fixedLiterals fixedDistances size
    else if kind = 2 then
      let (literals, distances) ← statedCodes
      codedBlock literals distances size
    else throw .corrupt
    if last = 1 then pure () else blocks fuel

/-- All blocks. Each takes at least three bits. -/
def inflate : Reader Unit := do
  let size := (← get).data.size
  blocks (size * 8)

end Folio.Filter.Inflate
