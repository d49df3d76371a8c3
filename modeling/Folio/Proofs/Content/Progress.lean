import Folio.Content.Instruction
import Folio.Proofs.Syntax.Progress

/-!
# A content stream comes to an end

Reading an instruction takes at least one byte off the content, so there are no more instructions than
bytes. Main statement: `readInstructions_of_length_le`, no bound on the number of instructions makes a
difference that is at least the length of the content.
-/

namespace Folio.Content

open Syntax

variable {data rest before : Bytes} {d : Dict} {image : Stream} {i : Instruction}
variable {operands : List Object}

/-! ## Inline images -/

theorem length_le_of_readImageEntries? {fuel : Nat} {entries : Dict}
    (h : readImageEntries? fuel d data = some (entries, rest)) : rest.length ≤ data.length := by
  induction fuel generalizing d data with
  | zero => cases h
  | succ fuel ih =>
    have hskip := length_skipSpace_le data
    simp only [readImageEntries?] at h
    split at h
    · cases h
      rw [List.length_drop]
      omega
    · split at h
      · rename_i hkey
        obtain ⟨⟨_, after⟩, hvalue, h⟩ := Option.bind_eq_some_iff.mp h
        have := advances_readObject? _ _ _ _ hkey
        have := advances_readObject? _ _ _ _ hvalue
        have hrest : rest.length ≤ after.length := ih h
        omega
      · cases h

theorem length_le_of_readSizedImage? (h : readSizedImage? d data = some (image, rest)) :
    rest.length ≤ data.length := by
  obtain ⟨_, -, h⟩ := Option.bind_eq_some_iff.mp h
  obtain ⟨⟨_, after⟩, hsplit, h⟩ := Option.bind_eq_some_iff.mp h
  obtain ⟨_, hdrop, hrest⟩ := Option.bind_eq_some_iff.mp h
  cases hrest
  calc rest.length ≤ (skipSpace after).length := Bytes.length_le_of_dropTag? hdrop
    _ ≤ after.length := length_skipSpace_le after
    _ ≤ data.length := Bytes.length_le_of_splitAt? hsplit

theorem length_le_of_findImage? (h : findImage? d before data = some (image, rest)) :
    rest.length ≤ data.length := by
  induction data generalizing before with
  | nil => cases h
  | cons b data ih =>
    simp only [findImage?] at h
    split at h
    · rename_i hmark
      split at h
      · cases h
        exact Bytes.length_le_of_dropTag? hmark
      · exact Nat.le_succ_of_le (ih h)
    · exact Nat.le_succ_of_le (ih h)

theorem length_le_of_readInlineImage? (h : readInlineImage? data = some (image, rest)) :
    rest.length ≤ data.length := by
  obtain ⟨⟨entries, body⟩, hentries, h⟩ := Option.bind_eq_some_iff.mp h
  refine le_trans ?_ (length_le_of_readImageEntries? hentries)
  have hblank : (if body.head?.any isWhiteSpace then body.drop 1 else body).length ≤ body.length := by
    split <;> simp
  refine le_trans ?_ hblank
  rcases Option.or_eq_some_iff.mp h with hsized | ⟨-, hfound⟩
  · exact length_le_of_readSizedImage? hsized
  · exact length_le_of_findImage? hfound

/-! ## Instructions -/

/-- Reading an instruction takes at least one byte off the content. -/
theorem length_lt_of_nextInstruction? {fuel : Nat}
    (h : nextInstruction? fuel operands data = some (i, rest)) : rest.length < data.length := by
  induction fuel generalizing operands data with
  | zero => cases h
  | succ fuel ih =>
    rw [nextInstruction?] at h
    split at h
    · cases h
    · rename_i b tail hfirst
      have hskip := length_skipSpace_le data
      rw [hfirst, List.length_cons] at hskip
      simp only at h
      split at h
      · split at h
        · rename_i hobject
          have := advances_readObject? _ _ _ _ hobject
          have := ih h
          simp only [List.length_cons] at *
          omega
        · have := ih h
          omega
      · split at h
        · have := ih h
          omega
        · rename_i hword
          have hdrop := length_lt_of_keyword? hword
          rw [List.length_cons] at hdrop
          split at h
          · have := ih h
            omega
          · split at h
            · obtain ⟨⟨_, after⟩, himage, hrest⟩ := Option.map_eq_some_iff.mp h
              cases hrest
              have himage : after.length ≤ _ := length_le_of_readInlineImage? himage
              exact lt_of_le_of_lt himage (by omega)
            · cases h
              omega

/-- A bound on the operands that is larger than the content is none. -/
theorem nextInstruction?_of_length_lt {fuel : Nat} (h : data.length < fuel) (more : Nat) :
    nextInstruction? (fuel + more) operands data = nextInstruction? fuel operands data := by
  induction fuel generalizing operands data with
  | zero => exact absurd h (Nat.not_lt_zero _)
  | succ fuel ih =>
    rw [Nat.succ_add, nextInstruction?, nextInstruction?]
    cases hfirst : skipSpace data with
    | nil => rfl
    | cons b tail =>
      have hskip := length_skipSpace_le data
      rw [hfirst, List.length_cons] at hskip
      simp only
      have htail : nextInstruction? (fuel + more) operands tail = nextInstruction? fuel operands tail :=
        ih (by omega)
      rw [htail]
      split
      · split
        · rename_i hobject
          have := advances_readObject? _ _ _ _ hobject
          rw [List.length_cons] at this
          exact ih (by omega)
        · rfl
      · split
        · rfl
        · rename_i hword
          have hdrop := length_lt_of_keyword? hword
          rw [List.length_cons] at hdrop
          split
          · exact ih (by omega)
          · rfl

theorem readInstructions_add {fuel : Nat} (h : data.length ≤ fuel) (more : Nat) :
    readInstructions (fuel + more) data = readInstructions fuel data := by
  induction fuel generalizing data with
  | zero =>
    obtain rfl : data = [] := List.eq_nil_of_length_eq_zero (Nat.le_zero.mp h)
    cases more <;> rfl
  | succ fuel ih =>
    rw [Nat.succ_add, readInstructions, readInstructions]
    cases hnext : nextInstruction? (data.length + 1) [] data with
    | none => rfl
    | some p =>
      have := length_lt_of_nextInstruction? hnext
      simp only [ih (show p.2.length ≤ fuel by omega)]

/-- The instructions of a content stream are read to its end. -/
theorem readInstructions_of_length_le {fuel : Nat} (h : data.length ≤ fuel) :
    readInstructions fuel data = instructions data := by
  obtain ⟨more, rfl⟩ := Nat.exists_eq_add_of_le h
  exact readInstructions_add le_rfl more

end Folio.Content
