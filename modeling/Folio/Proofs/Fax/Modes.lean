import Folio.Proofs.Fax.Reference
import Folio.Proofs.Fax.Runs

/-!
# Rows coded in two dimensions

A row is coded by modes that relate its changes to those of the row above. Which mode is taken is
determined by the rows; only the words of a run may be chosen.

Main statements: the code of a row is read as its changes, and every row has one.
-/

namespace Folio.Fax

/-! ## The current position -/

variable {row above : List Bool} {a0 : Option Nat}

/-- Whether a position is on the row or before it. -/
def Within (row : List Bool) (a0 : Option Nat) : Prop := ∀ x ∈ a0, x < row.length

instance (row : List Bool) (a0 : Option Nat) : Decidable (Within row a0) :=
  inferInstanceAs (Decidable (∀ x ∈ a0, x < row.length))

/-- The changes up to a position. -/
def passed (row : List Bool) (a0 : Option Nat) : List Nat := (changes row).filter (isPassed a0)

theorem isPassed_eq_false {c : Nat} (h : ∀ x ∈ a0, x < c) : isPassed a0 c = false := by
  cases a0 with
  | none => rfl
  | some x => exact decide_eq_false (Nat.not_le.mpr (h x rfl))

theorem passed_none (row : List Bool) : passed row none = [] :=
  List.filter_eq_nil_iff.mpr fun _ _ => by simp

theorem colorAt_eq (h : Within row a0) :
    colorAt row a0 = decide ((passed row a0).length % 2 = 1) := by
  cases a0 with
  | none => rw [passed_none]; rfl
  | some x =>
    rw [colorAt, Option.any_some, getD_eq_countP_changes (h x rfl), List.countP_eq_length_filter]
    rfl

theorem passed_end : passed row (some row.length) = changes row := by
  rw [passed, List.filter_eq_self]
  intro c hc
  exact decide_eq_true (lt_length_of_mem_changes hc).le

/-- The next change is added to those that are passed when the position moves to it. -/
theorem filter_isPassed_append {l : List Nat} {c : Nat} (h : l.Pairwise (· < ·))
    (hfind : l.find? (fun x => !isPassed a0 x) = some c) :
    l.filter (isPassed (some c)) = l.filter (isPassed a0) ++ [c] := by
  induction l with
  | nil => cases hfind
  | cons d l ih =>
    obtain ⟨hfirst, hrest⟩ := List.pairwise_cons.mp h
    by_cases hd : isPassed a0 d = true
    · rw [List.find?_cons_of_neg (by simp [hd])] at hfind
      have hlt := hfirst c (List.mem_of_find?_eq_some hfind)
      have hdc : isPassed (some c) d = true := decide_eq_true hlt.le
      rw [List.filter_cons_of_pos hd, List.filter_cons_of_pos hdc, ih hrest hfind,
        List.cons_append]
    · rw [List.find?_cons_of_pos (by simpa using hd)] at hfind
      obtain rfl := Option.some.inj hfind
      have hnone : l.filter (isPassed a0) = [] := by
        rw [List.filter_eq_nil_iff]
        exact fun x hx hp => hd (isPassed_mono (hfirst x hx).le hp)
      have hafter : l.filter (isPassed (some d)) = [] := by
        rw [List.filter_eq_nil_iff]
        exact fun x hx hp => Nat.not_le.mpr (hfirst x hx) (of_decide_eq_true hp)
      have hdd : isPassed (some d) d = true := decide_eq_true (Nat.le_refl d)
      rw [List.filter_cons_of_neg hd, List.filter_cons_of_pos hdd, hnone, hafter]
      rfl

/-- The next change on a row is a further one, or there is none and all changes are passed. -/
theorem nextChange_spec (row : List Bool) (a0 : Option Nat) :
    (nextChange row a0 < row.length ∧
      passed row (some (nextChange row a0)) = passed row a0 ++ [nextChange row a0]) ∨
    (nextChange row a0 = row.length ∧ passed row a0 = changes row) := by
  unfold nextChange
  cases hfind : (changes row).find? (fun x => !isPassed a0 x) with
  | some c =>
    exact .inl ⟨lt_length_of_mem_changes (List.mem_of_find?_eq_some hfind),
      filter_isPassed_append (pairwise_changes row) hfind⟩
  | none =>
    refine .inr ⟨rfl, ?_⟩
    rw [passed, List.filter_eq_self]
    simpa using hfind

theorem nextChange_le (row : List Bool) (a0 : Option Nat) : nextChange row a0 ≤ row.length := by
  rcases nextChange_spec row a0 with ⟨h, -⟩ | ⟨h, -⟩
  · exact h.le
  · exact h.le

theorem lt_nextChange (h : Within row a0) : ∀ x ∈ a0, x < nextChange row a0 := by
  rintro x rfl
  unfold nextChange
  cases hfind : (changes row).find? (fun c => !isPassed (some x) c) with
  | none => exact h x rfl
  | some c => simpa using List.find?_some hfind

theorem le_nextChange {x : Nat} (h : x ≤ row.length) : x ≤ nextChange row (some x) := by
  unfold nextChange
  cases hfind : (changes row).find? (fun c => !isPassed (some x) c) with
  | none => exact h
  | some c => exact (show x < c by simpa using List.find?_some hfind).le

/-- No change lies between a position and the next change. -/
theorem passed_eq_of_lt_nextChange {x : Nat} (hle : ∀ y ∈ a0, y ≤ x) (hlt : x < nextChange row a0) :
    passed row (some x) = passed row a0 := by
  refine List.filter_congr fun c hc => ?_
  rw [Bool.eq_iff_iff, isPassed_some, decide_eq_true_eq]
  constructor
  · intro hcx
    by_contra hnot
    unfold nextChange at hlt
    cases hfind : (changes row).find? (fun c => !isPassed a0 c) with
    | none => exact hnot (by simpa using List.find?_eq_none.mp hfind c hc)
    | some d =>
      rw [hfind] at hlt
      have hdc := le_of_find?_eq_some (pairwise_changes row) hfind hc (by simpa using hnot)
      exact absurd (hdc.trans hcx) (Nat.not_le.mpr hlt)
  · intro hpassed
    cases a0 with
    | none => cases hpassed
    | some y => exact (of_decide_eq_true hpassed).trans (hle y rfl)

theorem ne_of_mem_passed {c : Nat} (h : Within row a0) (hc : c ∈ passed row a0) :
    c ≠ nextChange row a0 := by
  rintro rfl
  have hpassed := (List.mem_filter.mp hc).2
  rw [isPassed_eq_false (lt_nextChange h)] at hpassed
  cases hpassed

/-! ## Two dimensions -/

/-- The first change of the row above to the right of a position that leads away from its color. -/
def firstAbove (above row : List Bool) (a0 : Option Nat) : Nat :=
  changeAbove above a0 (colorAt row a0)

/-- The change of the row above after the first one. -/
def secondAbove (above row : List Bool) (a0 : Option Nat) : Nat :=
  nextChange above (some (firstAbove above row a0))

/-- The bits of a row from a position on, given the row above. If the second change above is to the
left of the next change on the row, it is passed. A next change that is at most three pixels away from
the first change above is given by its offset, and otherwise two runs follow. -/
inductive ModesCode (above row : List Bool) : Option Nat → List Bool → Prop
  | done : ModesCode above row (some row.length) []
  | pass {a0 : Option Nat} {word bits : List Bool} :
    Within row a0 → secondAbove above row a0 < nextChange row a0 →
    (word, .pass) ∈ standardModes →
    ModesCode above row (some (secondAbove above row a0)) bits →
    ModesCode above row a0 (word ++ bits)
  | vertical {a0 : Option Nat} {offset : Int} {word bits : List Bool} :
    Within row a0 → nextChange row a0 ≤ secondAbove above row a0 →
    nextChange row a0 = firstAbove above row a0 + offset → |offset| ≤ 3 →
    (word, .vertical offset) ∈ standardModes →
    ModesCode above row (some (nextChange row a0)) bits →
    ModesCode above row a0 (word ++ bits)
  | horizontal {a0 : Option Nat} {a1 a2 : Nat} {word first second bits : List Bool} :
    Within row a0 → nextChange row a0 ≤ secondAbove above row a0 →
    3 < |(nextChange row a0 : Int) - firstAbove above row a0| →
    a1 = nextChange row a0 → a2 = nextChange row (some a1) →
    (word, .horizontal) ∈ standardModes →
    RunCode (!colorAt row a0) (a1 - a0.getD 0) first →
    RunCode (colorAt row a0) (a2 - a1) second →
    ModesCode above row (some a2) bits →
    ModesCode above row a0 (word ++ (first ++ (second ++ bits)))

/-- The state of a decoder at a position of a row. -/
structure IsAt (s : RowState) (above row : List Bool) (a0 : Option Nat) : Prop where
  a0_eq : s.a0 = a0
  white_eq : Within row a0 → s.white = !colorAt row a0
  changes_eq : s.changes.reverse = passed row a0 ∨
    a0 = some row.length ∧ s.changes.reverse = changes row ++ [row.length]
  cursor_lt : s.cursor < (referenceOf above).size

variable {s : RowState}

theorem IsAt.changes_eq_passed (h : IsAt s above row a0) (hwithin : Within row a0) :
    s.changes.reverse = passed row a0 := by
  rcases h.changes_eq with hpassed | ⟨rfl, -⟩
  · exact hpassed
  · exact absurd (hwithin _ rfl) (Nat.lt_irrefl _)

/-- The next change is not the latest one that has been read. -/
theorem IsAt.head?_ne (h : IsAt s above row a0) (hwithin : Within row a0) :
    s.changes.head? ≠ some (nextChange row a0) := by
  intro hhead
  refine ne_of_mem_passed hwithin ?_ rfl
  rw [← h.changes_eq_passed hwithin, List.mem_reverse]
  exact List.mem_of_mem_head? hhead

/-- The changes above that a decoder finds. -/
theorem IsAt.findChange (h : IsAt s above row a0) (hwithin : Within row a0)
    (hlen : above.length = row.length) :
    findChange (referenceOf above) s.cursor s.a0 s.white < (referenceOf above).size ∧
      (referenceOf above).getD (findChange (referenceOf above) s.cursor s.a0 s.white) row.length =
        firstAbove above row a0 ∧
      (referenceOf above).getD (findChange (referenceOf above) s.cursor s.a0 s.white + 1)
        row.length = secondAbove above row a0 := by
  have hspec := findChange_spec s.a0 s.white h.cursor_lt
  rw [hlen, h.a0_eq, h.white_eq hwithin, Bool.not_not] at hspec
  rw [h.a0_eq, h.white_eq hwithin]
  exact hspec

theorem lt_firstAbove (hlen : above.length = row.length) (hwithin : Within row a0) :
    ∀ x ∈ a0, x < firstAbove above row a0 := by
  rintro x rfl
  unfold firstAbove changeAbove
  rw [hlen]
  cases hfind : (changes above).find? fun c =>
      !isPassed (some x) c && above.getD c false != colorAt row (some x) with
  | none => exact hwithin x rfl
  | some c =>
    have hc := List.find?_some hfind
    rw [Bool.and_eq_true] at hc
    simpa using hc.1

theorem firstAbove_le (hlen : above.length = row.length) : firstAbove above row a0 ≤ row.length := by
  unfold firstAbove changeAbove
  cases hfind : (changes above).find? fun c =>
      !isPassed a0 c && above.getD c false != colorAt row a0 with
  | none => exact hlen.le
  | some c => exact (lt_length_of_mem_changes (List.mem_of_find?_eq_some hfind)).le.trans hlen.le

theorem lt_secondAbove (hlen : above.length = row.length) (hwithin : Within row a0) :
    ∀ x ∈ a0, x < secondAbove above row a0 := fun x hx =>
  (lt_firstAbove hlen hwithin x hx).trans_le (le_nextChange ((firstAbove_le hlen).trans hlen.ge))

theorem IsAt.step_pass (h : IsAt s above row a0) (hwithin : Within row a0)
    (hlen : above.length = row.length) (hlt : secondAbove above row a0 < nextChange row a0)
    {word rest : List Bool} (hword : (word, .pass) ∈ standardModes) (hbits : s.bits = word ++ rest) :
    ∃ s', s.step row.length (referenceOf above) = .ok s' ∧
      IsAt s' above row (some (secondAbove above row a0)) ∧ s'.bits = rest := by
  obtain ⟨hcursor, -, hsecond⟩ := h.findChange hwithin hlen
  have hpassed : passed row (some (secondAbove above row a0)) = passed row a0 :=
    passed_eq_of_lt_nextChange (fun x hx => (lt_secondAbove hlen hwithin x hx).le) hlt
  have hwithin' : Within row (some (secondAbove above row a0)) := by
    rintro x ⟨⟩
    exact hlt.trans_le (nextChange_le row a0)
  have hcolor : colorAt row (some (secondAbove above row a0)) = colorAt row a0 := by
    rw [colorAt_eq hwithin', colorAt_eq hwithin, hpassed]
  rw [RowState.step, hbits, read_modeTree hword]
  refine ⟨_, rfl, ⟨congrArg some hsecond, fun _ => ?_, .inl ?_, hcursor⟩, rfl⟩
  · rw [hcolor]
    exact h.white_eq hwithin
  · rw [hpassed]
    exact h.changes_eq_passed hwithin

/-- The color changes at the next change. -/
theorem colorAt_nextChange (hwithin : Within row a0) (hlt : nextChange row a0 < row.length) :
    colorAt row (some (nextChange row a0)) = !colorAt row a0 := by
  rcases nextChange_spec row a0 with ⟨-, hpassed⟩ | ⟨heq, -⟩
  · have hwithin' : Within row (some (nextChange row a0)) := by
      rintro x ⟨⟩
      exact hlt
    rw [colorAt_eq hwithin', colorAt_eq hwithin, hpassed, List.length_append, List.length_singleton,
      decide_odd_succ]
  · exact absurd heq hlt.ne

/-- Adding the next change to those that have been read. -/
theorem reverse_cons_nextChange {stored : List Nat} (hstored : stored.reverse = passed row a0) :
    (nextChange row a0 :: stored).reverse = passed row (some (nextChange row a0)) ∨
      some (nextChange row a0) = some row.length ∧
        (nextChange row a0 :: stored).reverse = changes row ++ [row.length] := by
  rw [List.reverse_cons, hstored]
  rcases nextChange_spec row a0 with ⟨-, hpassed⟩ | ⟨heq, hpassed⟩
  · exact .inl hpassed.symm
  · rw [heq, hpassed]
    exact .inr ⟨rfl, rfl⟩

theorem IsAt.step_vertical (h : IsAt s above row a0) (hwithin : Within row a0)
    (hlen : above.length = row.length) {offset : Int}
    (hoffset : nextChange row a0 = firstAbove above row a0 + offset)
    {word rest : List Bool} (hword : (word, .vertical offset) ∈ standardModes)
    (hbits : s.bits = word ++ rest) :
    ∃ s', s.step row.length (referenceOf above) = .ok s' ∧
      IsAt s' above row (some (nextChange row a0)) ∧ s'.bits = rest := by
  obtain ⟨hcursor, hfirst, -⟩ := h.findChange hwithin hlen
  have hnotleft : ¬ (nextChange row a0 : Int) < s.a0.getD 0 := by
    rw [h.a0_eq]
    cases a0 with
    | none => exact Int.not_lt.mpr (Int.natCast_nonneg _)
    | some x => exact Int.not_lt.mpr (Int.ofNat_le.mpr (lt_nextChange hwithin x rfl).le)
  have hpush := pushChange_of_ne (nextChange_le row a0) (h.head?_ne hwithin)
  rw [RowState.step, hbits, read_modeTree hword]
  simp only [bind, Except.bind, hfirst, ← hoffset, if_neg hnotleft, Int.toNat_natCast, hpush,
    Nat.min_eq_left (nextChange_le row a0)]
  refine ⟨_, rfl, ⟨rfl, fun hnext => ?_, ?_, hcursor⟩, rfl⟩
  · rw [colorAt_nextChange hwithin (hnext _ rfl), h.white_eq hwithin]
  · exact reverse_cons_nextChange (h.changes_eq_passed hwithin)

/-- Adding the two changes that end two runs. -/
theorem push_two {stored : List Nat} (hwithin : Within row a0)
    (hstored : stored.reverse = passed row a0) (hne : stored.head? ≠ some (nextChange row a0)) :
    let a1 := nextChange row a0
    let a2 := nextChange row (some a1)
    let pushed := pushChange row.length a2 (pushChange row.length a1 stored)
    (pushed.reverse = passed row (some a2) ∨
      some a2 = some row.length ∧ pushed.reverse = changes row ++ [row.length]) ∧
    (Within row (some a2) → colorAt row (some a2) = colorAt row a0) := by
  intro a1 a2 pushed
  have hpush1 : pushChange row.length a1 stored = a1 :: stored :=
    pushChange_of_ne (nextChange_le row a0) hne
  rcases nextChange_spec row a0 with ⟨hlt, hpassed⟩ | ⟨heq, hpassed⟩
  · have hwithin1 : Within row (some a1) := by
      rintro x ⟨⟩
      exact hlt
    have hstored1 : (a1 :: stored).reverse = passed row (some a1) := by
      rw [List.reverse_cons, hstored]
      exact hpassed.symm
    have hne2 : (a1 :: stored).head? ≠ some a2 := fun hhead =>
      (lt_nextChange hwithin1 a1 rfl).ne (Option.some.inj hhead)
    have hpush2 : pushed = a2 :: a1 :: stored := by
      rw [← pushChange_of_ne (nextChange_le row (some a1)) hne2, ← hpush1]
    rw [hpush2]
    refine ⟨reverse_cons_nextChange hstored1, fun hwithin2 => ?_⟩
    rw [colorAt_nextChange hwithin1 (hwithin2 a2 rfl), colorAt_nextChange hwithin hlt, Bool.not_not]
  · have ha1 : a1 = row.length := heq
    have ha2 : a2 = row.length :=
      Nat.le_antisymm (nextChange_le row _) (ha1 ▸ le_nextChange ha1.le)
    have hpush2 : pushed = stored := by
      change pushChange row.length a2 (pushChange row.length a1 stored) = stored
      rw [hpush1, ha1, ha2]
      exact pushChange_self (Nat.le_refl _)
    rw [hpush2, ha2, passed_end]
    refine ⟨.inl (hstored.trans hpassed), fun hwithin2 => ?_⟩
    exact absurd (hwithin2 _ rfl) (Nat.lt_irrefl _)

theorem IsAt.step_horizontal (h : IsAt s above row a0) (hwithin : Within row a0)
    (hlen : above.length = row.length) {a1 a2 : Nat} (ha1 : a1 = nextChange row a0)
    (ha2 : a2 = nextChange row (some a1)) {word first second rest : List Bool}
    (hword : (word, .horizontal) ∈ standardModes)
    (hfirst : RunCode (!colorAt row a0) (a1 - a0.getD 0) first)
    (hsecond : RunCode (colorAt row a0) (a2 - a1) second)
    (hbits : s.bits = word ++ (first ++ (second ++ rest))) :
    ∃ s', s.step row.length (referenceOf above) = .ok s' ∧
      IsAt s' above row (some a2) ∧ s'.bits = rest := by
  obtain ⟨hcursor, -, -⟩ := h.findChange hwithin hlen
  have hle1 : a0.getD 0 ≤ a1 := by
    rw [ha1]
    cases a0 with
    | none => exact Nat.zero_le _
    | some x => exact (lt_nextChange hwithin x rfl).le
  have hle2 : a1 ≤ a2 := by
    rw [ha2]
    exact le_nextChange (ha1 ▸ nextChange_le row a0)
  have hrow2 : a2 ≤ row.length := ha2 ▸ nextChange_le row (some a1)
  have hread1 := hfirst.readRun (second ++ rest)
  have hread2 := hsecond.readRun rest
  rw [← h.white_eq hwithin] at hread1
  rw [← Bool.not_not (colorAt row a0), ← h.white_eq hwithin] at hread2
  rw [RowState.step, hbits, read_modeTree hword]
  simp only [bind, Except.bind, hread1, hread2, h.a0_eq, Nat.add_sub_cancel' hle1,
    Nat.add_sub_cancel' hle2, Nat.min_eq_left hrow2]
  subst ha1 ha2
  have hpush := push_two hwithin (h.changes_eq_passed hwithin) (h.head?_ne hwithin)
  refine ⟨_, rfl, ⟨rfl, fun hnext => ?_, hpush.1, ?_⟩, rfl⟩
  · rw [hpush.2 hnext]
    exact h.white_eq hwithin
  · rw [h.a0_eq] at hcursor
    exact hcursor

theorem readModes_step (hs : IsAt s above row a0) (hwithin : Within row a0) {s' : RowState}
    (hstep : s.step row.length (referenceOf above) = .ok s') (fuel : Nat) :
    readModes row.length (referenceOf above) (fuel + 1) s =
      readModes row.length (referenceOf above) fuel s' := by
  have hnotend : ¬ s.a0.any (row.length ≤ ·) = true := by
    rw [hs.a0_eq]
    cases a0 with
    | none => exact Bool.false_ne_true
    | some x => simpa using hwithin x rfl
  rw [readModes, if_neg hnotend, hstep]
  rfl

/-- Reading a mode and then the modes after it, where there is fuel for each bit. -/
theorem readModes_of_step {a0' : Option Nat} {bits rest : List Bool} {count fuel : Nat}
    (hs : IsAt s above row a0) (hwithin : Within row a0)
    (hstep : ∃ s', s.step row.length (referenceOf above) = .ok s' ∧ IsAt s' above row a0' ∧
      s'.bits = bits ++ rest)
    (hfuel : count < fuel) (hcount : bits.length < count)
    (hnext : ∀ {s}, IsAt s above row a0' → s.bits = bits ++ rest → ∀ {fuel}, bits.length < fuel →
      ∃ stored, readModes row.length (referenceOf above) fuel s = .ok (stored, rest) ∧
        Stores stored.reverse row) :
    ∃ stored, readModes row.length (referenceOf above) fuel s = .ok (stored, rest) ∧
      Stores stored.reverse row := by
  obtain ⟨fuel, rfl⟩ : ∃ k, fuel = k + 1 := ⟨fuel - 1, by omega⟩
  obtain ⟨s', hstep, hs', hbits'⟩ := hstep
  rw [readModes_step hs hwithin hstep]
  exact hnext hs' hbits' (by omega)

theorem length_lt_of_standardModes {mode : Mode} {word bits : List Bool}
    (h : (word, mode) ∈ standardModes) : bits.length < (word ++ bits).length := by
  rw [List.length_append]
  exact Nat.lt_add_of_pos_left (List.length_pos_iff.mpr (standardModes_ne_nil h))

/-- The modes from a position on are read as the changes of the row. -/
theorem ModesCode.readModes_eq {bits : List Bool} (h : ModesCode above row a0 bits)
    (hlen : above.length = row.length) (hs : IsAt s above row a0) {rest : List Bool}
    (hbits : s.bits = bits ++ rest) {fuel : Nat} (hfuel : bits.length < fuel) :
    ∃ stored, readModes row.length (referenceOf above) fuel s = .ok (stored, rest) ∧
      Stores stored.reverse row := by
  induction h generalizing s fuel with
  | done =>
    obtain ⟨fuel, rfl⟩ : ∃ k, fuel = k + 1 := ⟨fuel - 1, by omega⟩
    refine ⟨s.changes, ?_, ?_⟩
    · have hend : s.a0.any (row.length ≤ ·) = true := by
        rw [hs.a0_eq]
        exact decide_eq_true (Nat.le_refl _)
      rw [readModes, if_pos hend, hbits]
      rfl
    · rcases hs.changes_eq with hpassed | ⟨-, hend⟩
      · exact .inl (hpassed.trans passed_end)
      · exact .inr hend
  | pass hwithin hlt hword _ ih =>
    rw [List.append_assoc] at hbits
    exact readModes_of_step hs hwithin (hs.step_pass hwithin hlen hlt hword hbits) hfuel
      (length_lt_of_standardModes hword) ih
  | vertical hwithin _ hoffset _ hword _ ih =>
    rw [List.append_assoc] at hbits
    exact readModes_of_step hs hwithin (hs.step_vertical hwithin hlen hoffset hword hbits) hfuel
      (length_lt_of_standardModes hword) ih
  | @horizontal a0 a1 a2 word first second bits hwithin _ _ ha1 ha2 hword hfirst hsecond _ ih =>
    rw [List.append_assoc, List.append_assoc, List.append_assoc] at hbits
    have hstep := hs.step_horizontal hwithin hlen ha1 ha2 hword hfirst hsecond hbits
    have hcount : bits.length < (word ++ (first ++ (second ++ bits))).length := by
      refine Nat.lt_of_le_of_lt ?_ (length_lt_of_standardModes hword)
      rw [List.length_append, List.length_append]
      omega
    exact readModes_of_step hs hwithin hstep hfuel hcount ih

/-- A row coded in two dimensions is read as its changes. -/
theorem ModesCode.exists_stores {bits : List Bool} (h : ModesCode above row none bits)
    (hlen : above.length = row.length) {fuel : Nat} (hfuel : bits.length < fuel) (rest : List Bool) :
    ∃ stored, readModes row.length (referenceOf above) fuel { bits := bits ++ rest } =
      .ok (stored, rest) ∧ Stores stored.reverse row := by
  have hcursor : 0 < (referenceOf above).size := by
    rw [size_referenceOf]
    exact Nat.succ_pos _
  have hs : IsAt { bits := bits ++ rest } above row none :=
    ⟨rfl, fun _ => rfl, .inl (passed_none row).symm, hcursor⟩
  exact h.readModes_eq hlen hs rfl hfuel

theorem ModesCode.opensWithin {bits : List Bool} (h : ModesCode above row none bits) :
    OpensWithin 8 bits := by
  cases h with
  | pass _ _ hword _ => exact (opensWithin_standardModes hword).append _
  | vertical _ _ _ _ hword _ => exact (opensWithin_standardModes hword).append _
  | horizontal _ _ _ _ _ hword _ _ _ => exact (opensWithin_standardModes hword).append _

/-! ## The existence of a code -/

/-- How much of a row is left at a position. -/
def left (row : List Bool) (a0 : Option Nat) : Nat := a0.elim (row.length + 1) (row.length - ·)

theorem left_lt {x : Nat} (hlt : ∀ y ∈ a0, y < x) (hwithin : Within row a0) :
    left row (some x) < left row a0 := by
  cases a0 with
  | none => exact Nat.lt_succ_of_le (Nat.sub_le _ _)
  | some y =>
    have hyx := hlt y rfl
    have hy := hwithin y rfl
    simp only [left, Option.elim_some]
    omega

theorem exists_verticalWord {offset : Int} (h : |offset| ≤ 3) :
    ∃ word, (word, .vertical offset) ∈ standardModes := by
  obtain ⟨hlow, hhigh⟩ := abs_le.mp h
  have hall : ∀ k ∈ [(-3 : Int), -2, -1, 0, 1, 2, 3], ∃ e ∈ standardModes, e.2 = .vertical k := by
    decide
  obtain ⟨e, hmem, heq⟩ := hall offset (by simp; omega)
  exact ⟨e.1, heq ▸ hmem⟩

theorem within_or_eq {x : Nat} (h : x ≤ row.length) :
    Within row (some x) ∨ some x = some row.length := by
  rcases Nat.lt_or_eq_of_le h with hlt | rfl
  · refine .inl ?_
    rintro y ⟨⟩
    exact hlt
  · exact .inr rfl

theorem exists_modesCode_from (hlen : above.length = row.length)
    (h : Within row a0 ∨ a0 = some row.length) : ∃ bits, ModesCode above row a0 bits := by
  induction hleft : left row a0 using Nat.strongRecOn generalizing a0 with
  | ind count ih =>
    rcases h with hwithin | rfl
    · have hnext : ∀ x ≤ row.length, (∀ y ∈ a0, y < x) → ∃ bits, ModesCode above row (some x) bits :=
        fun x hle hlt => ih _ (hleft ▸ left_lt hlt hwithin) (within_or_eq hle) rfl
      have hle1 := nextChange_le row a0
      rcases Nat.lt_or_ge (secondAbove above row a0) (nextChange row a0) with hlt | hge
      · obtain ⟨bits, hbits⟩ := hnext _ (hlt.le.trans hle1) (lt_secondAbove hlen hwithin)
        have hword : ([false, false, false, true], Mode.pass) ∈ standardModes := by decide
        exact ⟨_, .pass hwithin hlt hword hbits⟩
      · rcases le_or_gt |(nextChange row a0 : Int) - firstAbove above row a0| 3 with hnear | hfar
        · obtain ⟨word, hword⟩ := exists_verticalWord hnear
          obtain ⟨bits, hbits⟩ := hnext _ hle1 (lt_nextChange hwithin)
          exact ⟨_, .vertical hwithin hge (add_sub_cancel _ _).symm hnear hword hbits⟩
        · have hle2 := nextChange_le row (some (nextChange row a0))
          obtain ⟨bits, hbits⟩ := hnext _ hle2 fun x hx =>
            (lt_nextChange hwithin x hx).trans_le (le_nextChange hle1)
          obtain ⟨first, hfirst⟩ := exists_runCode (!colorAt row a0) (nextChange row a0 - a0.getD 0)
          obtain ⟨second, hsecond⟩ := exists_runCode (colorAt row a0)
            (nextChange row (some (nextChange row a0)) - nextChange row a0)
          have hword : ([false, false, true], Mode.horizontal) ∈ standardModes := by decide
          exact ⟨_, .horizontal hwithin hge hfar rfl rfl hword hfirst hsecond hbits⟩
    · exact ⟨[], .done⟩

/-- Every row has a code in two dimensions. -/
theorem exists_modesCode (hlen : above.length = row.length) :
    ∃ bits, ModesCode above row none bits :=
  exists_modesCode_from hlen (.inl fun _ hx => by cases hx)

end Folio.Fax
