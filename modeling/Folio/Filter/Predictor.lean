import Folio.Object.Cast

/-!
# Predictors

Data of samples in rows may have been stored as differences from neighbouring samples. Undoing it
needs the shape of the rows: how many color components a pixel has, how many bits a component, and
how many pixels a row.
-/

namespace Folio.Filter

/-- How rows were predicted and what they look like. -/
structure Predictor where
  kind : Nat := 1
  colors : Nat := 1
  bits : Nat := 8
  columns : Nat := 1

namespace Predictor

/-- The predictor that decoding parameters describe. -/
def ofDict (params : Dict) : Predictor :=
  let byte (key : Name) (default : Nat) :=
    ((params.getAs? Object.uint8? key).map UInt8.toNat).getD default
  { kind := byte "Predictor" 1
    colors := byte "Colors" 1
    bits := byte "BitsPerComponent" 8
    columns := (params.getAs? Object.nat? "Columns").getD 1 }

/-- The number of bits of a pixel. -/
def pixelBits (p : Predictor) : Nat := p.bits * p.colors

/-- The number of bytes from a byte to the one it is predicted from, at least one. -/
def distance (p : Predictor) : Nat := max 1 ((p.pixelBits + 7) / 8)

/-- The number of bytes of a row. The number of its bits is reckoned in a machine word. -/
def rowLength (p : Predictor) : Nat := (p.columns * p.pixelBits % UInt64.size + 7) / 8

/-- Adds to each byte of a row the one `distance` bytes before it. -/
def undoDifferences (distance : Nat) (row : Bytes) : Bytes :=
  (row.foldl (fun (out : Array UInt8) b =>
    out.push (if distance ≤ out.size then b + out.getD (out.size - distance) 0 else b)) #[]).toList

/-- The neighbour that the sum of the left and the upper one less the upper left one is nearest to;
the first of those that are equally near. -/
def nearestNeighbour (left up upLeft : UInt8) : UInt8 :=
  let estimate : Int := left.toNat + up.toNat - upLeft.toNat
  let distanceTo (b : UInt8) : Nat := (estimate - b.toNat).natAbs
  if distanceTo left ≤ distanceTo up ∧ distanceTo left ≤ distanceTo upLeft then left
  else if distanceTo up ≤ distanceTo upLeft then up
  else upLeft

/-- How a byte is predicted from its neighbours by each of the five types of rows. -/
def estimate? (type : UInt8) (left up upLeft : UInt8) : Option UInt8 :=
  if type = 0 then some 0
  else if type = 1 then some left
  else if type = 2 then some up
  else if type = 3 then some ((left.toNat + up.toNat) / 2).toUInt8
  else if type = 4 then some (nearestNeighbour left up upLeft)
  else none

/-- A row with its prediction undone, given the row above it. Bytes before the row and above the
first one count as zero. -/
def undoRow? (distance : Nat) (above : Array UInt8) (type : UInt8) (row : Bytes) :
    Option (Array UInt8) :=
  row.foldlM (fun (out : Array UInt8) b => do
    let i := out.size
    let left := if distance ≤ i then out.getD (i - distance) 0 else 0
    let upLeft := if distance ≤ i then above.getD (i - distance) 0 else 0
    let guess ← estimate? type left (above.getD i 0) upLeft
    some (out.push (b + guess))) #[]

/-- Rows with their predictions undone, each row preceded by its type. -/
def undoRows? (distance : Nat) : Array UInt8 → List Bytes → Option Bytes
  | _, [] => some []
  | above, [] :: rest => undoRows? distance above rest
  | above, (type :: row) :: rest => do
    let out ← undoRow? distance above type row
    let others ← undoRows? distance out rest
    some (out.toList ++ others)

/-- The data with its prediction undone. An incomplete last row is kept where bytes are predicted
within the row and dropped where each row has a type. -/
def undo? (p : Predictor) (data : Bytes) : Option Bytes :=
  if p.kind ≤ 1 then some data
  else if p.kind = 2 then
    if p.bits ≠ 8 ∨ p.rowLength = 0 then some data
    else some ((data.blocks p.rowLength).flatMap (undoDifferences p.colors))
  else if 10 ≤ p.kind ∧ p.kind ≤ 15 then
    if p.rowLength = 0 then some []
    else undoRows? p.distance #[] (data.exactBlocks (p.rowLength + 1))
  else none

end Predictor

end Folio.Filter
