import Mathlib
import Folio.Syntax.Grammar

/-!
# Space between objects

White space and comments are skipped before an object. The blanks inside a reference may hold no comments.
-/

namespace Folio.Syntax

/-- Whether a text is white space. -/
def IsBlank (s : Bytes) : Prop := ∀ b ∈ s, isWhiteSpace b = true

/-- White space and comments, each comment up to the end of its line. -/
inductive Spacing : Bytes → Prop
  | nil : Spacing []
  | blank {b : UInt8} {s : Bytes} : isWhiteSpace b = true → Spacing s → Spacing (b :: s)
  | comment {text s : Bytes} {b : UInt8} :
    (∀ c ∈ text, isEndOfLine c = false) → isEndOfLine b = true → Spacing s →
      Spacing (37 :: (text ++ b :: s))

variable {s blank data rest : Bytes} {b : UInt8}

theorem isBlank_nil : IsBlank [] := fun _ h => absurd h List.not_mem_nil

theorem isBlank_space : IsBlank [32] := by simp [IsBlank, isWhiteSpace]

theorem isBlank_cons : IsBlank (b :: s) ↔ isWhiteSpace b = true ∧ IsBlank s := List.forall_mem_cons

theorem IsBlank.spacing (h : IsBlank s) : Spacing s := by
  induction s with
  | nil => exact .nil
  | cons b s ih =>
    obtain ⟨hb, hs⟩ := isBlank_cons.mp h
    exact .blank hb (ih hs)

theorem skipComment_append (h : ∀ c ∈ s, isEndOfLine c = false) (hb : isEndOfLine b = true) :
    skipComment (s ++ b :: rest) = skipSpace rest := by
  induction s with
  | nil => simp [skipComment, hb]
  | cons c s ih =>
    obtain ⟨hc, hs⟩ := List.forall_mem_cons.mp h
    simp [skipComment, hc, ih hs]

theorem Spacing.skipSpace_append (h : Spacing s) (data : Bytes) :
    skipSpace (s ++ data) = skipSpace data := by
  induction h with
  | nil => rfl
  | blank hb _ ih => simp [skipSpace, hb, ih]
  | comment htext hb _ ih =>
    rw [List.cons_append, skipSpace, if_neg (by decide), if_pos rfl, List.append_assoc,
      List.cons_append, skipComment_append htext hb, ih]

theorem skipSpace_cons (hb : isWhiteSpace b = false) (hpercent : b ≠ 37) :
    skipSpace (b :: rest) = b :: rest := by
  simp [skipSpace, hb, hpercent]

/-- The first byte after white space. -/
def nextByte? (data : Bytes) : Option UInt8 := (data.dropWhile isWhiteSpace).head?

theorem IsBlank.dropWhile_append (h : IsBlank blank) (data : Bytes) :
    (blank ++ data).dropWhile isWhiteSpace = data.dropWhile isWhiteSpace :=
  List.dropWhile_append_of_pos h

theorem IsBlank.nextByte?_append (h : IsBlank blank) (data : Bytes) :
    nextByte? (blank ++ data) = nextByte? data := by
  rw [nextByte?, h.dropWhile_append, nextByte?]

theorem nextByte?_cons (hb : isWhiteSpace b = false) : nextByte? (b :: rest) = some b := by
  simp [nextByte?, hb]

theorem IsBlank.nextByte?_eq_none (h : IsBlank s) : nextByte? s = none := by
  rw [nextByte?, List.dropWhile_eq_nil_iff.mpr h]
  rfl

/-- Whether a word of regular characters that comes before some data ends there. -/
def EndsWord (rest : Bytes) : Prop := ∀ b ∈ rest.head?, isRegular b = false

theorem endsWord_cons : EndsWord (b :: rest) ↔ isRegular b = false := by simp [EndsWord]

theorem IsBlank.endsWord_append (h : IsBlank blank) (hne : blank ≠ []) (rest : Bytes) :
    EndsWord (blank ++ rest) := by
  cases blank with
  | nil => exact absurd rfl hne
  | cons b blank =>
    rw [List.cons_append, endsWord_cons, isRegular, (isBlank_cons.mp h).1]
    rfl

/-- The bytes of a class that data start with are a text whose bytes are all in the class, if the class
does not go on after it. -/
theorem span_append {p : UInt8 → Bool} (hs : ∀ b ∈ s, p b = true) (hrest : ∀ b ∈ rest.head?, p b = false) :
    (s ++ rest).takeWhile p = s ∧ (s ++ rest).dropWhile p = rest := by
  rw [List.takeWhile_append_of_pos hs, List.dropWhile_append_of_pos hs]
  cases rest with
  | nil => simp
  | cons b rest => simp [hrest b rfl]

theorem dropBlanks?_eq_some (h : dropBlanks? data = some rest) :
    rest = data.dropWhile isWhiteSpace := by
  cases data with
  | nil => cases h
  | cons b data =>
    rw [dropBlanks?] at h
    split at h
    · rename_i hb
      rw [← Option.some.inj h, List.dropWhile_cons_of_pos hb]
    · cases h

theorem IsBlank.dropBlanks?_append (h : IsBlank blank) (hne : blank ≠ [])
    (hb : isWhiteSpace b = false) : dropBlanks? (blank ++ b :: rest) = some (b :: rest) := by
  cases blank with
  | nil => exact absurd rfl hne
  | cons c blank =>
    obtain ⟨hc, hblank⟩ := isBlank_cons.mp h
    rw [List.cons_append, dropBlanks?, if_pos hc, hblank.dropWhile_append,
      List.dropWhile_cons_of_neg (by simp [hb])]

end Folio.Syntax
