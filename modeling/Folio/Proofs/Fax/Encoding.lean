import Folio.Proofs.Bits
import Folio.Proofs.Fax.Modes

/-!
# Encoding fax data

The data of an image: its rows one after the other, between them the ends of lines and the tags that
the scheme asks for, and after them a marker if there is one.

Main statement: all rows of one length can be encoded.
-/

namespace Folio.Fax

/-- The bits before a row. Rows coded in two dimensions follow each other, and rows with tags come
after the end of a line. -/
inductive SyncCode (scheme : Scheme) : List Bool → Prop
  | nothing : scheme ≠ .mixed → SyncCode scheme []
  | endOfLine {zeros : Nat} :
    scheme ≠ .twoDimensional → 11 ≤ zeros → SyncCode scheme (endOfLine zeros)

/-- The bits of a row with its tag. -/
inductive RowCode (above row : List Bool) : Scheme → List Bool → Prop
  | runs {bits : List Bool} :
    RunsCode true (runs row) bits → RowCode above row .oneDimensional bits
  | modes {bits : List Bool} :
    ModesCode above row none bits → RowCode above row .twoDimensional bits
  | taggedRuns {bits : List Bool} :
    RunsCode true (runs row) bits → RowCode above row .mixed (true :: bits)
  | taggedModes {bits : List Bool} :
    ModesCode above row none bits → RowCode above row .mixed (false :: bits)

/-- The end of a line in a marker. -/
def markerLine (scheme : Scheme) (zeros : Nat) : List Bool :=
  endOfLine zeros ++ if scheme = .mixed then [true] else []

/-- The bits of a marker: two ends of lines, or any number of them from two on where single ones
come before rows. -/
inductive MarkerCode : Scheme → List Bool → Prop
  | block : MarkerCode .twoDimensional (endOfLine 11 ++ endOfLine 11)
  | returnToControl {scheme : Scheme} {first second : Nat} {more : List Nat} :
    scheme ≠ .twoDimensional → 11 ≤ first → 11 ≤ second → (∀ zeros ∈ more, 11 ≤ zeros) →
    MarkerCode scheme ((first :: second :: more).flatMap (markerLine scheme))

/-- The bits between the given position and the next row. -/
def rowFill (p : Params) (position : Nat) : List Bool :=
  if p.byteAligned then Bits.fill position else []

/-- The bits of some rows from a position on, given the row above. -/
inductive Encodes (p : Params) : List Bool → List (List Bool) → Nat → List Bool → Prop
  | nothing {above : List Bool} {position : Nat} : Encodes p above [] position []
  | marker {above bits : List Bool} {position : Nat} :
    MarkerCode p.scheme bits → Encodes p above [] position (rowFill p position ++ bits)
  | row {above row sync code rest : List Bool} {rows : List (List Bool)} {position : Nat} :
    SyncCode p.scheme sync → RowCode above row p.scheme code →
    Encodes p row rows (position + (rowFill p position ++ (sync ++ code)).length) rest →
    Encodes p above (row :: rows) position (rowFill p position ++ (sync ++ (code ++ rest)))

variable {p : Params} {above row : List Bool} {rows : List (List Bool)} {position : Nat}

theorem exists_rowCode (scheme : Scheme) (hlen : above.length = row.length) :
    ∃ sync code, SyncCode scheme sync ∧ RowCode above row scheme code := by
  obtain ⟨oneDimensional, hruns⟩ := exists_runsCode true (runs row)
  obtain ⟨twoDimensional, hmodes⟩ := exists_modesCode hlen
  cases scheme with
  | oneDimensional => exact ⟨[], oneDimensional, .nothing (by decide), .runs hruns⟩
  | mixed =>
    exact ⟨endOfLine 11, true :: oneDimensional, .endOfLine (by decide) (Nat.le_refl 11),
      .taggedRuns hruns⟩
  | twoDimensional => exact ⟨[], twoDimensional, .nothing (by decide), .modes hmodes⟩

/-- All rows of one length can be encoded. -/
theorem exists_encodes (hlen : ∀ row ∈ rows, row.length = above.length) (position : Nat) :
    ∃ bits, Encodes p above rows position bits := by
  induction rows generalizing above position with
  | nil => exact ⟨[], .nothing⟩
  | cons row rows ih =>
    obtain ⟨hrow, hrest⟩ := List.forall_mem_cons.mp hlen
    obtain ⟨sync, code, hsync, hcode⟩ := exists_rowCode p.scheme hrow.symm
    obtain ⟨bits, hbits⟩ := ih (hrow ▸ hrest)
      (position + (rowFill p position ++ (sync ++ code)).length)
    exact ⟨_, .row hsync hcode hbits⟩

end Folio.Fax
