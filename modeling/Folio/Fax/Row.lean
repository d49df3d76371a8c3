import Folio.Fax.Code

/-!
# Rows of fax data

A row is stored as its changes: the positions of the pixels whose color differs from that of the
pixel before, where a white pixel is imagined before the first one. So changes to black have even
indices. A reference row ends in two more changes at the end of the row.
-/

namespace Folio.Fax

/-- The changes of a row with a further one added, latest first. It lies within the row, and a
second change at one position cancels the first. -/
def pushChange (columns position : Nat) (changes : List Nat) : List Nat :=
  let position := min position columns
  match changes with
  | last :: earlier => if last = position then earlier else position :: last :: earlier
  | [] => [position]

/-- The runs of a row coded in one dimension from `a0` on, at most `fuel` of them: its changes,
latest first, and the bits after it. -/
def readRuns (columns : Nat) :
    Nat → Nat → Bool → List Nat → List Bool → Except Error (List Nat × List Bool)
  | 0, _, _, _, _ => .error .unexpectedEnd
  | fuel + 1, a0, white, changes, bits =>
    if columns ≤ a0 then .ok (changes, bits)
    else do
      let (run, bits) ← readRun white bits
      readRuns columns fuel (a0 + run) (!white) (pushChange columns (a0 + run) changes) bits

/-- Whether a change above is not to the right of the current position. -/
def isPassed (a0 : Option Nat) (position : Nat) : Bool := a0.any (position ≤ ·)

/-- The index moved back past all changes that are to the right of the current position. -/
def rewindTo (reference : Array Nat) (a0 : Option Nat) : Nat → Nat
  | 0 => 0
  | i + 1 => if isPassed a0 (reference.getD i 0) then i + 1 else rewindTo reference a0 i

/-- The index moved on, at most `fuel` times, to a change that is to the right of the current
position and has the given parity, or to the last one. -/
def advanceTo (reference : Array Nat) (a0 : Option Nat) (parity : Nat) : Nat → Nat → Nat
  | 0, i => i
  | fuel + 1, i =>
    if i + 1 < reference.size && (isPassed a0 (reference.getD i 0) || i % 2 != parity) then
      advanceTo reference a0 parity fuel (i + 1)
    else i

/-- The index of the first change above that is to the right of the current position and leads away
from the current color. The search begins at any index. -/
def findChange (reference : Array Nat) (cursor : Nat) (a0 : Option Nat) (white : Bool) : Nat :=
  advanceTo reference a0 (if white then 0 else 1) reference.size (rewindTo reference a0 cursor)

/-- The state in the middle of a row coded in two dimensions. -/
structure RowState where
  bits : List Bool
  /-- The current position, if it is not before the first pixel. -/
  a0 : Option Nat := none
  white : Bool := true
  /-- The changes so far, latest first. -/
  changes : List Nat := []
  /-- Where the search for a change above resumes. -/
  cursor : Nat := 0

/-- The state after the next mode. -/
def RowState.step (columns : Nat) (reference : Array Nat) (s : RowState) :
    Except Error RowState := do
  let cursor := findChange reference s.cursor s.a0 s.white
  let b1 := reference.getD cursor columns
  let b2 := reference.getD (cursor + 1) columns
  let (mode, bits) ← modeTree.read s.bits
  match mode with
  | .pass => .ok { s with bits, cursor, a0 := some b2 }
  | .horizontal =>
    let (first, bits) ← readRun s.white bits
    let (second, bits) ← readRun (!s.white) bits
    let a1 := s.a0.getD 0 + first
    let a2 := a1 + second
    let changes := pushChange columns a2 (pushChange columns a1 s.changes)
    .ok { s with bits, cursor, changes, a0 := some (min a2 columns) }
  | .vertical offset =>
    let a1 : Int := b1 + offset
    if a1 < s.a0.getD 0 then .error .invalidRow
    else
      let a1 := a1.toNat
      .ok { bits, cursor, a0 := some (min a1 columns), white := !s.white,
            changes := pushChange columns a1 s.changes }

/-- The modes of a row up to its end, at most `fuel` of them: its changes, latest first, and the
bits after it. -/
def readModes (columns : Nat) (reference : Array Nat) :
    Nat → RowState → Except Error (List Nat × List Bool)
  | 0, _ => .error .unexpectedEnd
  | fuel + 1, s =>
    if s.a0.any (columns ≤ ·) then .ok (s.changes, s.bits)
    else do
      let s ← s.step columns reference
      readModes columns reference fuel s

/-- The changes above a first row, which is white. -/
def whiteReference (columns : Nat) : Array Nat := #[columns, columns]

/-- The changes of a row, as the row below refers to them. -/
def toReference (columns : Nat) (changes : List Nat) : Array Nat :=
  (changes.filter (· < columns) ++ [columns, columns]).toArray

/-- The pixels of a row from `x` on, given their color and the changes that follow. -/
def pixelsFrom (columns : Nat) : Nat → Bool → List Nat → List Bool
  | x, black, [] => List.replicate (columns - x) black
  | x, black, change :: rest =>
    List.replicate (change - x) black ++ pixelsFrom columns change (!black) rest

/-- The pixels of a row, true for black. -/
def pixels (columns : Nat) (changes : List Nat) : List Bool := pixelsFrom columns 0 false changes

end Folio.Fax
