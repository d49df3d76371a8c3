import Folio.Bits
import Folio.Image.Reader
import Folio.PrefixCode

/-!
# Baseline photographs

A reader for photographs in the baseline process that consist of flat blocks: of the coefficients of
a block only the first, its mean, is coded. All components have the same resolution, and their
values are given as they are stored, without a change of color.
-/

namespace Folio.Jpeg

/-- A component of a frame. -/
structure Component where
  id : UInt8
  /-- The number of the quantization table. -/
  quantizer : UInt8

/-- The size and the components of a photograph. -/
structure Frame where
  width : Nat
  height : Nat
  components : List Component

/-- What the segments before the coded data define. -/
structure Definitions where
  /-- The first factor of each quantization table. -/
  factors : List (UInt8 × Nat) := []
  /-- The prefix codes, by their class and number in one byte. -/
  codes : List (UInt8 × PrefixCode) := []
  frame : Option Frame := none
  /-- The number of blocks of each component between restarts, or zero. -/
  restartInterval : Nat := 0

/-- The first factors of the quantization tables in a segment, at most `fuel` of them. -/
def readFactors? : Nat → Bytes → Option (List (UInt8 × Nat))
  | _, [] => some []
  | 0, _ => none
  | fuel + 1, head :: rest => do
    let size := if head < 16 then 1 else 2
    let (table, rest) ← Bytes.splitAt? rest (64 * size)
    let others ← readFactors? fuel rest
    some ((head % 16, Bytes.toNatBE (table.take size)) :: others)

/-- The prefix codes in a segment, at most `fuel` of them. -/
def readCodes? : Nat → Bytes → Option (List (UInt8 × PrefixCode))
  | _, [] => some []
  | 0, _ => none
  | fuel + 1, head :: rest => do
    let (counts, rest) ← Bytes.splitAt? rest 16
    let counts := counts.map UInt8.toNat
    let (symbols, rest) ← Bytes.splitAt? rest (counts.foldl (· + ·) 0)
    let others ← readCodes? fuel rest
    some ((head, ⟨counts, (symbols.map UInt8.toNat).toArray⟩) :: others)

/-- The components that a frame lists, none of which is of a lower resolution. -/
def readComponents? : Bytes → Option (List Component)
  | [] => some []
  | id :: sampling :: quantizer :: rest =>
    if sampling = 0x11 then (readComponents? rest).map (⟨id, quantizer⟩ :: ·) else none
  | _ => none

/-- The frame that a segment describes. -/
def readFrame? (segment : Bytes) : Option Frame := do
  let (head, components) ← Bytes.splitAt? segment 6
  match head with
  | [8, h1, h0, w1, w0, _] =>
    let components ← readComponents? components
    some ⟨Bytes.toNatBE [w1, w0], Bytes.toNatBE [h1, h0], components⟩
  | _ => none

/-- The definitions with those of a segment. -/
def Definitions.addSegment? (d : Definitions) (marker : UInt8) (segment : Bytes) :
    Option Definitions :=
  if marker = 0xDB then
    (readFactors? segment.length segment).map fun new => { d with factors := new ++ d.factors }
  else if marker = 0xC4 then
    (readCodes? segment.length segment).map fun new => { d with codes := new ++ d.codes }
  else if marker = 0xC0 then (readFrame? segment).map fun frame => { d with frame := some frame }
  else if marker = 0xDD then some { d with restartInterval := Bytes.toNatBE segment }
  else if 0xC1 ≤ marker ∧ marker ≤ 0xCF then none
  else some d

/-- The definitions in the segments up to the one that begins the coded data, at most `fuel` of
them; that segment, and the coded data. -/
def readDefinitions? : Nat → Definitions → Bytes → Option (Definitions × Bytes × Bytes)
  | fuel + 1, d, 0xFF :: marker :: rest =>
    if marker = 0xFF then readDefinitions? fuel d (0xFF :: rest)
    else do
      let (length, rest) ← Bytes.splitAt? rest 2
      let (segment, rest) ← Bytes.splitAt? rest (Bytes.toNatBE length - 2)
      if marker = 0xDA then some (d, segment, rest)
      else
        let d ← d.addSegment? marker segment
        readDefinitions? fuel d rest
  | _, _, _ => none

/-- The parts of the coded data between restarts. A byte of ones in it is followed by a zero that
does not count. -/
def codedParts : Bytes → List Bytes
  | 0xFF :: 0x00 :: rest => addToFirst 0xFF (codedParts rest)
  | 0xFF :: marker :: rest =>
    if 0xD0 ≤ marker ∧ marker ≤ 0xD7 then [] :: codedParts rest else [[]]
  | b :: rest => addToFirst b (codedParts rest)
  | [] => [[]]
where
  /-- Puts a byte in front of the first part. -/
  addToFirst (b : UInt8) : List Bytes → List Bytes
    | part :: parts => (b :: part) :: parts
    | [] => [[b]]

/-- What the blocks of a component are decoded with. -/
structure Channel where
  meanCode : PrefixCode
  detailCode : PrefixCode
  factor : Nat

/-- The channel of a component, whose codes the beginning of the coded data selects. -/
def Definitions.channel? (d : Definitions) (c : Component) : Bytes → Option Channel
  | id :: selection :: rest =>
    if id = c.id then do
      let meanCode ← d.codes.lookup (selection / 16)
      let detailCode ← d.codes.lookup (16 + selection % 16)
      let factor ← d.factors.lookup c.quantizer
      some ⟨meanCode, detailCode, factor⟩
    else d.channel? c rest
  | _ => none

/-- The number that some bits stand for, where those that begin with a zero are negative. -/
def signedNumber (bits : List Bool) : Int :=
  match bits with
  | false :: _ => (Bits.toNat bits : Int) - (1 <<< bits.length - 1 : Nat)
  | bits => Bits.toNat bits

/-- The level of a flat block with a mean. -/
def levelOf (mean : Int) (factor : Nat) : UInt8 :=
  (max 0 (min 255 (mean * factor / 8 + 128))).toNat.toUInt8

/-- The means of the next block of each channel, given the previous ones, and the bits after it. -/
def readBlocks? : List Channel → List Int → List Bool → Option (List Int × List Bool)
  | [], _, bits => some ([], bits)
  | c :: channels, previous, bits => do
    let (size, bits) ← c.meanCode.read? bits
    let (difference, bits) := bits.splitAt size
    guard (difference.length = size)
    let (ends, bits) ← c.detailCode.read? bits
    guard (ends = 0)
    let (means, bits) ← readBlocks? channels previous.tail bits
    some ((previous.headD 0 + signedNumber difference) :: means, bits)

/-- The levels of `count` blocks of each channel, given the means of the previous ones. -/
def readPart? (channels : List Channel) : Nat → List Int → List Bool → Option (List Bytes)
  | 0, _, _ => some []
  | count + 1, previous, bits => do
    let (means, bits) ← readBlocks? channels previous bits
    let others ← readPart? channels count means bits
    some (List.zipWith (fun mean (c : Channel) => levelOf mean c.factor) means channels :: others)

/-- The levels of `count` blocks of each channel, in parts of `interval` blocks. -/
def readParts? (channels : List Channel) (interval : Nat) : Nat → List Bytes →
    Option (List Bytes)
  | 0, _ => some []
  | _, [] => none
  | count, part :: parts => do
    let here := min count interval
    let blocks ← readPart? channels here [] (Bits.ofBytes part)
    let others ← readParts? channels interval (count - here) parts
    some (blocks ++ others)

/-- The values of a photograph, pixel by pixel, given the levels of its blocks. -/
def spreadBlocks (f : Frame) (blocks : Array Bytes) : Bytes :=
  let perRow := (f.width + 7) / 8
  (List.range f.height).flatMap fun y =>
    (List.range f.width).flatMap fun x => blocks.getD (y / 8 * perRow + x / 8) []

/-- Reads a photograph. -/
def read? (data : Bytes) : Option CodedRaster := do
  let rest ← Bytes.dropTag? [0xFF, 0xD8] data
  let (d, scan, coded) ← readDefinitions? data.length {} rest
  let frame ← d.frame
  guard (0 < frame.width ∧ 0 < frame.height)
  let channels ← frame.components.mapM fun c => d.channel? c (scan.drop 1)
  let count := (frame.width + 7) / 8 * ((frame.height + 7) / 8)
  let interval := if d.restartInterval = 0 then count else d.restartInterval
  let blocks ← readParts? channels interval count (codedParts coded)
  some
    { width := frame.width
      height := frame.height
      components := frame.components.length
      data := spreadBlocks frame blocks.toArray
      alpha := none }

end Folio.Jpeg
