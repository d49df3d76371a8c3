import Folio.Fax.Row

/-!
# Decoding fax data

Rows are decoded one after the other, each with the one above as its reference, up to the stated
number of rows, an end marker, or the end of the data. Data that simply ends early leaves the
remaining rows white.
-/

namespace Folio.Fax

/-- What is left of the data and the rows so far, latest first, each as its changes. -/
structure Progress where
  bits : List Bool
  rows : List (List Nat) := []

namespace Progress

/-- The reference of the next row. -/
def reference (p : Progress) (columns : Nat) : Array Nat :=
  match p.rows with
  | [] => whiteReference columns
  | changes :: _ => toReference columns changes

/-- The next row, coded in two dimensions or in one: its changes and the bits after it. -/
def readRow (p : Progress) (columns fuel : Nat) (twoDimensional : Bool) (bits : List Bool) :
    Except Error (List Nat × List Bool) := do
  let (changes, bits) ←
    if twoDimensional then readModes columns (p.reference columns) fuel { bits }
    else readRuns columns fuel 0 true [] bits
  .ok (changes.reverse, bits)

end Progress

/-- Whether the next row is coded in two dimensions, and the bits after the tag that says so. -/
def readTag (scheme : Scheme) (bits : List Bool) : Except Error (Bool × List Bool) :=
  match scheme, bits with
  | .twoDimensional, bits => .ok (true, bits)
  | .oneDimensional, bits => .ok (false, bits)
  | .mixed, tag :: bits => .ok (!tag, bits)
  | .mixed, [] => .error .unexpectedEnd

/-- Whether an error in a row just ends the image. There must be a row already, and the data must
end there or the number of rows be unknown. -/
def Error.endsImage (e : Error) (p : Params) (rows : List (List Nat)) : Bool :=
  !rows.isEmpty && (e == .unexpectedEnd || p.rows == 0)

/-- The rows of the data, latest first, in at most `steps` steps. No row has more than `fuel` runs
or modes. -/
def decodeRows (p : Params) (fuel : Nat) : Nat → Progress → Except Error (List (List Nat))
  | 0, s => .ok s.rows
  | steps + 1, s =>
    if p.rows ≠ 0 ∧ p.rows ≤ s.rows.length then .ok s.rows
    else
      let bits := if p.byteAligned then Bits.align s.bits else s.bits
      let (ends, bits) := skipEndOfLines (p.scheme == .mixed) fuel bits
      let marked := if p.scheme = .twoDimensional then 0 < ends else 1 < ends
      if marked || (!s.rows.isEmpty && bits.all (!·)) then .ok s.rows
      else do
        let (twoDimensional, bits) ← readTag p.scheme bits
        match s.readRow p.columns fuel twoDimensional bits with
        | .ok (changes, bits) => decodeRows p fuel steps ⟨bits, changes :: s.rows⟩
        | .error e => if e.endsImage p s.rows then .ok s.rows else .error e

/-- The image of the given rows, completed with white ones. -/
def imageOf (p : Params) (rows : List (List Nat)) : Image :=
  let count := max p.rows rows.length
  let stride := (p.columns + 7) / 8
  { columns := p.columns
    rows := count
    data := rows.flatMap (fun changes => Bits.pack (pixels p.columns changes)) ++
      List.replicate ((count - rows.length) * stride) 0 }

/-- The image that some data encodes. -/
def decode (data : Bytes) (p : Params) : Except Error Image :=
  if p.columns = 0 ∨ maxColumns < p.columns then .error .invalidColumns
  else do
    let bits := Bits.ofBytes data
    let fuel := bits.length + 1
    let rows ← decodeRows p fuel fuel { bits }
    if rows.isEmpty then .error .unexpectedEnd else .ok (imageOf p rows.reverse)

end Folio.Fax
