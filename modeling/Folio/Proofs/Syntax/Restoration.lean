import Folio.Proofs.Syntax.Reading

/-!
# An object or nothing

A parser that fails to read an object is left as it was, at whatever place inside of the object it failed, and one that
reads an object has gone forward. Those that look for objects byte by byte therefore miss none and come to an end.
-/

namespace Folio.Syntax

variable {α : Type} {data rest : Bytes}

theorem advances_readIndirectIn? (inContent : Bool) (levels : Nat) : Advances (readIndirectIn? inContent levels) := by
  intro data definition rest h
  obtain ⟨⟨_, data1⟩, hnumber, h⟩ := Option.bind_eq_some_iff.mp h
  obtain ⟨⟨_, data2⟩, hgeneration, h⟩ := Option.bind_eq_some_iff.mp h
  obtain ⟨data3, htag, h⟩ := Option.bind_eq_some_iff.mp h
  obtain ⟨_, -, h⟩ := Option.bind_eq_some_iff.mp h
  obtain ⟨⟨_, data4⟩, hobject, h⟩ := Option.bind_eq_some_iff.mp h
  cases h
  have := length_skipSpace_le data
  have := advances_readInteger? _ _ _ hnumber
  have := length_skipSpace_le data1
  have := advances_readInteger? _ _ _ hgeneration
  have := length_skipSpace_le data2
  have := Bytes.length_le_of_dropTag? htag
  have := advances_readNested? _ _ _ _ _ hobject
  have := length_skipSpace_le data4
  cases hend : Bytes.dropTag? (.ofAscii "endobj") (skipSpace data4) with
  | none =>
    simp only [Option.getD_none]
    omega
  | some rest =>
    have := Bytes.length_le_of_dropTag? hend
    simp only [Option.getD_some]
    omega

namespace Parser

open Parse

variable {p : Parser} {m : Parse α} {read : Bytes → Option (α × Bytes)}

/-- Whether a step that fails leaves the parser exactly as it was, and one that has a result moves forward within the
data and changes nothing but the position. -/
def AllOrNothing (p : Parser) (m : Parse α) : Prop :=
  match m p with
  | (none, q) => q = p
  | (some _, q) =>
    p.cursor.offset < q.cursor.offset ∧ q.cursor.offset ≤ p.cursor.data.length ∧ q = p.jump q.cursor.offset

theorem At.allOrNothing (h : p.At data) (hread : Advances read) (hm : p.Reads m (read data))
    (hnone : read data = none → m p = (none, p)) : p.AllOrNothing m := by
  unfold AllOrNothing
  cases hvalue : read data with
  | none => rw [hnone hvalue]
  | some value =>
    rw [hvalue] at hm
    have hrest := hm.suffix h _ _ rfl
    have hlength := hread _ _ _ hvalue
    rw [hm.2]
    refine ⟨?_, (h.seek hrest).offset_le, rfl⟩
    rw [h.offset_seek]
    omega

/-- Where there is no object or no definition of one, the parser is left as it was; else it goes forward and stays within
the data. Which of the two is the case, and what is read, does not depend on what was tried in between. -/
theorem readObject_readIndirect_allOrNothing (p : Parser) (hoffset : p.cursor.offset ≤ p.cursor.data.length)
    (howner : p.owner = none) :
    p.AllOrNothing readObject ∧ p.AllOrNothing readIndirect ∧
      (readObject p).1 = (readNested? p.toMode (maxNesting + 1 - p.depth) p.cursor.rest).map (·.1) ∧
      (readIndirect p).1 =
        (readIndirectIn? p.inContent (maxNesting + 1 - p.depth) p.cursor.rest).map (·.1) := by
  have h : p.At p.cursor.rest := ⟨hoffset, rfl⟩
  have hobject := h.reads_readObject
  have hindirect := h.reads_readIndirect howner
  refine ⟨h.allOrNothing (advances_readNested? _ _) hobject fun hnone => ?_,
    h.allOrNothing (advances_readIndirectIn? _ _) hindirect fun hnone => ?_, hobject.fst_eq, hindirect.fst_eq⟩
  · rw [hnone] at hobject
    exact hobject.restoring_eq_none
  · rw [hnone] at hindirect
    exact hindirect.restoring_eq_none

/-- Before the definition of an array that does not end, there is a number but no definition. -/
theorem readObject_readIndirect_allOrNothing_unclosed :
    let p : Parser := ⟨{}, ⟨.ofAscii "1 0 obj [(a) 2 0 R", 0⟩, 0⟩
    (p.cursor.offset ≤ p.cursor.data.length ∧ p.owner = none) ∧
      (p.AllOrNothing readObject ∧ p.AllOrNothing readIndirect ∧
        (readObject p).1 = (readNested? p.toMode (maxNesting + 1 - p.depth) p.cursor.rest).map (·.1) ∧
        (readIndirect p).1 =
          (readIndirectIn? p.inContent (maxNesting + 1 - p.depth) p.cursor.rest).map (·.1)) ∧
      (readObject p).2.cursor.offset = 1 ∧ (readIndirect p).1.isNone ∧ (readIndirect p).2.cursor.offset = 0 :=
  ⟨by decide, readObject_readIndirect_allOrNothing _ (Nat.zero_le _) rfl, by decide +kernel⟩

end Parser

end Folio.Syntax
