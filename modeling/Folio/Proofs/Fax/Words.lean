import Mathlib
import Folio.Fax.Code

/-!
# Reading code words

Main statements: the tree of a code has the words of the standard and reads each of them, a run that is
written as any number of words for 64 pixels or more and a last word for fewer is read as its length,
and no row begins with zeros enough for the end of a line.
-/

namespace Folio.Fax

namespace CodeTree

variable {α : Type}

/-- The value at the place of a tree. -/
def value? : CodeTree α → Option α
  | leaf value => some value
  | _ => none

/-- The value that a word leads to. -/
def lookup? (t : CodeTree α) : List Bool → Option α
  | [] => t.value?
  | b :: word => (t.branch b).lookup? word

theorem lookup?_empty (word : List Bool) : (empty : CodeTree α).lookup? word = none := by
  induction word with
  | nil => rfl
  | cons b word ih => exact ih

/-- After the first bit of a word there is its value or a tree in which it goes on. -/
theorem lookup?_cons {t : CodeTree α} {b : Bool} {word : List Bool} {value : α}
    (h : t.lookup? (b :: word) = some value) :
    word = [] ∧ t.branch b = leaf value ∨
      ∃ c rest zero one, word = c :: rest ∧ t.branch b = node zero one := by
  rw [lookup?] at h
  cases hbranch : t.branch b with
  | empty =>
    rw [hbranch, lookup?_empty] at h
    cases h
  | leaf value' =>
    rw [hbranch] at h
    cases word with
    | nil => exact .inl ⟨rfl, congrArg leaf (Option.some.inj h)⟩
    | cons c rest =>
      rw [lookup?, show (leaf value').branch c = empty by cases c <;> rfl, lookup?_empty] at h
      cases h
  | node zero one =>
    rw [hbranch] at h
    cases word with
    | nil => cases h
    | cons c rest => exact .inr ⟨c, rest, zero, one, rfl, rfl⟩

/-- Reading takes a word up to its end. -/
theorem read_append {t : CodeTree α} {word : List Bool} {value : α} (hne : word ≠ [])
    (h : t.lookup? word = some value) (bits : List Bool) :
    t.read (word ++ bits) = .ok (value, bits) := by
  induction word generalizing t with
  | nil => exact absurd rfl hne
  | cons b word ih =>
    rw [List.cons_append, read]
    rcases lookup?_cons h with ⟨rfl, hbranch⟩ | ⟨c, rest, zero, one, rfl, hbranch⟩
    · rw [hbranch]
      rfl
    · rw [lookup?, hbranch] at h
      rw [hbranch]
      exact ih (List.cons_ne_nil c rest) h

end CodeTree

/-! ## The words of the standard -/

/-- The words of white runs in the standard, by their lengths. -/
def whiteTable : List (Nat × List (Nat × Nat)) := [
  (4, [(0b0111, 2), (0b1000, 3), (0b1011, 4), (0b1100, 5), (0b1110, 6), (0b1111, 7)]),
  (5, [(0b00111, 10), (0b01000, 11), (0b10010, 128), (0b10011, 8), (0b10100, 9), (0b11011, 64)]),
  (6, [(0b000011, 13), (0b000111, 1), (0b001000, 12), (0b010111, 192), (0b011000, 1664),
    (0b101010, 16), (0b101011, 17), (0b110100, 14), (0b110101, 15)]),
  (7, [(0b0000011, 22), (0b0000100, 23), (0b0001000, 20), (0b0001100, 19), (0b0010011, 26),
    (0b0010111, 21), (0b0011000, 28), (0b0100100, 27), (0b0100111, 18), (0b0101000, 24),
    (0b0101011, 25), (0b0110111, 256)]),
  (8, [(0b00000010, 29), (0b00000011, 30), (0b00000100, 45), (0b00000101, 46), (0b00001010, 47),
    (0b00001011, 48), (0b00010010, 33), (0b00010011, 34), (0b00010100, 35), (0b00010101, 36),
    (0b00010110, 37), (0b00010111, 38), (0b00011010, 31), (0b00011011, 32), (0b00100100, 53),
    (0b00100101, 54), (0b00101000, 39), (0b00101001, 40), (0b00101010, 41), (0b00101011, 42),
    (0b00101100, 43), (0b00101101, 44), (0b00110010, 61), (0b00110011, 62), (0b00110100, 63),
    (0b00110101, 0), (0b00110110, 320), (0b00110111, 384), (0b01001010, 59), (0b01001011, 60),
    (0b01010010, 49), (0b01010011, 50), (0b01010100, 51), (0b01010101, 52), (0b01011000, 55),
    (0b01011001, 56), (0b01011010, 57), (0b01011011, 58), (0b01100100, 448), (0b01100101, 512),
    (0b01100111, 640), (0b01101000, 576)]),
  (9, [(0b010011000, 1472), (0b010011001, 1536), (0b010011010, 1600), (0b010011011, 1728),
    (0b011001100, 704), (0b011001101, 768), (0b011010010, 832), (0b011010011, 896),
    (0b011010100, 960), (0b011010101, 1024), (0b011010110, 1088), (0b011010111, 1152),
    (0b011011000, 1216), (0b011011001, 1280), (0b011011010, 1344), (0b011011011, 1408)])]

/-- The words of black runs in the standard, by their lengths. -/
def blackTable : List (Nat × List (Nat × Nat)) := [
  (2, [(0b10, 3), (0b11, 2)]),
  (3, [(0b010, 1), (0b011, 4)]),
  (4, [(0b0010, 6), (0b0011, 5)]),
  (5, [(0b00011, 7)]),
  (6, [(0b000100, 9), (0b000101, 8)]),
  (7, [(0b0000100, 10), (0b0000101, 11), (0b0000111, 12)]),
  (8, [(0b00000100, 13), (0b00000111, 14)]),
  (9, [(0b000011000, 15)]),
  (10, [(0b0000001000, 18), (0b0000001111, 64), (0b0000010111, 16), (0b0000011000, 17),
    (0b0000110111, 0)]),
  (11, [(0b00000010111, 24), (0b00000011000, 25), (0b00000101000, 23), (0b00000110111, 22),
    (0b00001100111, 19), (0b00001101000, 20), (0b00001101100, 21)]),
  (12, [(0b000000100100, 52), (0b000000100111, 55), (0b000000101000, 56), (0b000000101011, 59),
    (0b000000101100, 60), (0b000000110011, 320), (0b000000110100, 384), (0b000000110101, 448),
    (0b000000110111, 53), (0b000000111000, 54), (0b000001010010, 50), (0b000001010011, 51),
    (0b000001010100, 44), (0b000001010101, 45), (0b000001010110, 46), (0b000001010111, 47),
    (0b000001011000, 57), (0b000001011001, 58), (0b000001011010, 61), (0b000001011011, 256),
    (0b000001100100, 48), (0b000001100101, 49), (0b000001100110, 62), (0b000001100111, 63),
    (0b000001101000, 30), (0b000001101001, 31), (0b000001101010, 32), (0b000001101011, 33),
    (0b000001101100, 40), (0b000001101101, 41), (0b000011001000, 128), (0b000011001001, 192),
    (0b000011001010, 26), (0b000011001011, 27), (0b000011001100, 28), (0b000011001101, 29),
    (0b000011010010, 34), (0b000011010011, 35), (0b000011010100, 36), (0b000011010101, 37),
    (0b000011010110, 38), (0b000011010111, 39), (0b000011011010, 42), (0b000011011011, 43)]),
  (13, [(0b0000001001010, 640), (0b0000001001011, 704), (0b0000001001100, 768),
    (0b0000001001101, 832), (0b0000001010010, 1280), (0b0000001010011, 1344),
    (0b0000001010100, 1408), (0b0000001010101, 1472), (0b0000001011010, 1536),
    (0b0000001011011, 1600), (0b0000001100100, 1664), (0b0000001100101, 1728),
    (0b0000001101100, 512), (0b0000001101101, 576), (0b0000001110010, 896), (0b0000001110011, 960),
    (0b0000001110100, 1024), (0b0000001110101, 1088), (0b0000001110110, 1152),
    (0b0000001110111, 1216)])]

/-- The words of long runs of either color in the standard, by their lengths. -/
def longTable : List (Nat × List (Nat × Nat)) := [
  (11, [(0b00000001000, 1792), (0b00000001100, 1856), (0b00000001101, 1920)]),
  (12, [(0b000000010010, 1984), (0b000000010011, 2048), (0b000000010100, 2112),
    (0b000000010101, 2176), (0b000000010110, 2240), (0b000000010111, 2304), (0b000000011100, 2368),
    (0b000000011101, 2432), (0b000000011110, 2496), (0b000000011111, 2560)])]

/-- The words of the runs of one color in the standard, with the lengths of the runs. -/
def standardRuns (white : Bool) : List (List Bool × Nat) :=
  ((if white then whiteTable else blackTable) ++ longTable).flatMap fun (length, words) =>
    words.map fun (word, run) => (Bits.ofNat length word, run)

/-- The words of the modes in the standard. An offset to the right is positive. -/
def standardModes : List (List Bool × Mode) := [
  ([false, false, false, true], .pass),
  ([false, false, true], .horizontal),
  ([true], .vertical 0),
  ([false, true, true], .vertical 1),
  ([false, false, false, false, true, true], .vertical 2),
  ([false, false, false, false, false, true, true], .vertical 3),
  ([false, true, false], .vertical (-1)),
  ([false, false, false, false, true, false], .vertical (-2)),
  ([false, false, false, false, false, true, false], .vertical (-3))]

variable {white : Bool} {word bits : List Bool}

/-- The tree of a color has the words of the standard, none of which begins with another one. -/
theorem lookup?_runTree {run : Nat} (h : (word, run) ∈ standardRuns white) :
    (runTree white).lookup? word = some run := by
  have hall : ∀ e ∈ standardRuns white, (runTree white).lookup? e.1 = some e.2 := by
    cases white <;> decide +kernel
  exact hall _ h

/-- The tree of the modes has the words of the standard, none of which begins with another one. -/
theorem lookup?_modeTree {mode : Mode} (h : (word, mode) ∈ standardModes) :
    modeTree.lookup? word = some mode := by
  have hall : ∀ e ∈ standardModes, modeTree.lookup? e.1 = some e.2 := by decide
  exact hall _ h

theorem standardRuns_ne_nil {run : Nat} (h : (word, run) ∈ standardRuns white) : word ≠ [] := by
  have hall : ∀ e ∈ standardRuns white, e.1 ≠ [] := by cases white <;> decide
  exact hall _ h

theorem standardModes_ne_nil {mode : Mode} (h : (word, mode) ∈ standardModes) : word ≠ [] := by
  have hall : ∀ e ∈ standardModes, e.1 ≠ [] := by decide
  exact hall _ h

theorem read_modeTree {mode : Mode} (h : (word, mode) ∈ standardModes) (bits : List Bool) :
    modeTree.read (word ++ bits) = .ok (mode, bits) :=
  CodeTree.read_append (standardModes_ne_nil h) (lookup?_modeTree h) bits

/-- Reading a word of a run from a branch of its code. -/
theorem readRunFrom_word {root t : CodeTree Nat} {run length : Nat} (hne : word ≠ [])
    (h : t.lookup? word = some length) (bits : List Bool) :
    readRunFrom root t run (word ++ bits) =
      if length < 64 then .ok (run + length, bits)
      else readRunFrom root root (run + length) bits := by
  induction word generalizing t with
  | nil => exact absurd rfl hne
  | cons b word ih =>
    rw [List.cons_append, readRunFrom]
    rcases CodeTree.lookup?_cons h with ⟨rfl, hbranch⟩ | ⟨c, rest, zero, one, rfl, hbranch⟩
    · rw [hbranch]
      rfl
    · rw [CodeTree.lookup?, hbranch] at h
      rw [hbranch]
      exact ih (List.cons_ne_nil c rest) h

/-- The bits of a run: any number of words for 64 pixels or more and a last word for fewer. -/
inductive RunCode (white : Bool) : Nat → List Bool → Prop
  | last {word : List Bool} {length : Nat} :
    (word, length) ∈ standardRuns white → length < 64 → RunCode white length word
  | more {word bits : List Bool} {length run : Nat} :
    (word, length) ∈ standardRuns white → 64 ≤ length → RunCode white run bits →
      RunCode white (length + run) (word ++ bits)

theorem RunCode.readRunFrom {run : Nat} (h : RunCode white run bits) (before : Nat)
    (rest : List Bool) :
    readRunFrom (runTree white) (runTree white) before (bits ++ rest) =
      .ok (before + run, rest) := by
  induction h generalizing before with
  | last hmem hlt =>
    rw [readRunFrom_word (standardRuns_ne_nil hmem) (lookup?_runTree hmem), if_pos hlt]
  | more hmem hle _ ih =>
    rw [List.append_assoc, readRunFrom_word (standardRuns_ne_nil hmem) (lookup?_runTree hmem),
      if_neg (Nat.not_lt.mpr hle), ih, Nat.add_assoc]

theorem RunCode.readRun {run : Nat} (h : RunCode white run bits) (rest : List Bool) :
    readRun white (bits ++ rest) = .ok (run, rest) := by
  rw [Folio.Fax.readRun, h.readRunFrom, Nat.zero_add]

theorem RunCode.length_pos {run : Nat} (h : RunCode white run bits) : 0 < bits.length := by
  cases h with
  | last hmem _ => exact List.length_pos_iff.mpr (standardRuns_ne_nil hmem)
  | more hmem _ _ =>
    rw [List.length_append]
    exact Nat.add_pos_left (List.length_pos_iff.mpr (standardRuns_ne_nil hmem)) _

/-- There are words for every run. -/
theorem exists_runCode (white : Bool) (run : Nat) : ∃ bits, RunCode white run bits := by
  have hall : ∀ length ≤ 64, ∃ e ∈ standardRuns white, e.2 = length := by
    cases white <;> decide
  induction run using Nat.strongRecOn with
  | ind run ih =>
    by_cases hrun : run < 64
    · obtain ⟨e, hmem, heq⟩ := hall run (Nat.le_of_lt hrun)
      exact ⟨e.1, .last (heq ▸ hmem) hrun⟩
    · obtain ⟨e, hmem, heq⟩ := hall 64 (Nat.le_refl 64)
      obtain ⟨bits, hbits⟩ := ih (run - 64) (by omega)
      have hcode := RunCode.more (heq ▸ hmem : (e.1, 64) ∈ standardRuns white) (Nat.le_refl 64) hbits
      rw [Nat.add_sub_cancel' (Nat.le_of_not_lt hrun)] at hcode
      exact ⟨_, hcode⟩

/-! ## The ends of lines -/

/-- Whether a one is among the first `count` bits. -/
def OpensWithin (count : Nat) (bits : List Bool) : Prop := true ∈ bits.take count

theorem OpensWithin.append {count : Nat} (h : OpensWithin count bits) (rest : List Bool) :
    OpensWithin count (bits ++ rest) := by
  unfold OpensWithin at h ⊢
  rw [List.take_append]
  exact List.mem_append_left _ h

theorem OpensWithin.mono {count count' : Nat} (h : OpensWithin count bits) (hle : count ≤ count') :
    OpensWithin count' bits :=
  (List.take_subset_take_left _ hle) h

theorem OpensWithin.cons {count : Nat} (h : OpensWithin count bits) (b : Bool) :
    OpensWithin (count + 1) (b :: bits) :=
  List.mem_cons_of_mem b h

theorem RunCode.opensWithin {run : Nat} (h : RunCode true run bits) : OpensWithin 8 bits := by
  have hall : ∀ e ∈ standardRuns true, true ∈ e.1.take 8 := by decide
  cases h with
  | last hmem _ => exact hall _ hmem
  | more hmem _ _ => exact (show OpensWithin 8 _ from hall _ hmem).append _

theorem opensWithin_standardModes {mode : Mode} (h : (word, mode) ∈ standardModes) :
    OpensWithin 8 word := by
  have hall : ∀ e ∈ standardModes, true ∈ e.1.take 8 := by decide
  exact hall _ h

/-- An end-of-line word with the given number of zeros. -/
def endOfLine (zeros : Nat) : List Bool := List.replicate zeros false ++ [true]

theorem skipEndOfLine?_of_opens {zeros : Nat} (h : OpensWithin (11 - zeros) bits) :
    skipEndOfLine? zeros bits = none := by
  induction bits generalizing zeros with
  | nil => rfl
  | cons b bits ih =>
    unfold OpensWithin at h
    cases hzeros : 11 - zeros with
    | zero =>
      rw [hzeros] at h
      cases h
    | succ count =>
      rw [hzeros, List.take_succ_cons] at h
      cases b with
      | false =>
        refine ih ?_
        rw [show 11 - (zeros + 1) = count by omega]
        exact (List.mem_cons.mp h).resolve_left (by decide)
      | true => exact if_neg (by omega)

theorem skipEndOfLine?_of_zeros (h : ∀ b ∈ bits, b = false) (zeros : Nat) :
    skipEndOfLine? zeros bits = none := by
  induction bits generalizing zeros with
  | nil => rfl
  | cons b bits ih =>
    obtain ⟨rfl, hrest⟩ := List.forall_mem_cons.mp h
    exact ih hrest _

theorem skipEndOfLine?_endOfLine {zeros : Nat} (h : 11 ≤ zeros) (bits : List Bool) :
    skipEndOfLine? 0 (endOfLine zeros ++ bits) = some bits := by
  have hskip : ∀ before, skipEndOfLine? before (endOfLine zeros ++ bits) =
      if 11 ≤ before + zeros then some bits else none := by
    clear h
    induction zeros with
    | zero => exact fun _ => rfl
    | succ zeros ih =>
      intro before
      have hstep := ih (before + 1)
      rw [Nat.add_assoc, Nat.add_comm 1] at hstep
      exact hstep
  rw [hskip, Nat.zero_add, if_pos h]

/-- No white run begins with eight zeros. -/
theorem readRun_zeros (rest : List Bool) :
    readRun true (List.replicate 8 false ++ rest) = .error .invalidCode := by
  rfl

/-- The end of a line is no run. -/
theorem readRun_endOfLine {zeros : Nat} (h : 8 ≤ zeros) (rest : List Bool) :
    readRun true (endOfLine zeros ++ rest) = .error .invalidCode := by
  obtain ⟨more, rfl⟩ := Nat.exists_eq_add_of_le h
  rw [endOfLine, ← List.replicate_append_replicate, List.append_assoc, List.append_assoc]
  exact readRun_zeros _

end Folio.Fax
