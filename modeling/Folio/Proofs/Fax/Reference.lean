import Folio.Proofs.Except
import Folio.Proofs.Fax.Changes

/-!
# Changes near a position

The changes that the coding of a row refers to: the next one on the row itself, and on the row above
the next one that leads away from the current color and the one after it.

A decoder looks for changes above from the index on at which its last search stopped, first back and then forward.
Main statements: `findChange_spec`, the search finds the changes of a row above, and `search_forgets_cursor`, wherever
a search begins it finds the same of any increasing positions, and a row is read alike whatever searches have been made
before.
-/

namespace Folio.Fax

/-- The color at a position of a row, which is white before the first pixel. -/
def colorAt (row : List Bool) (a0 : Option Nat) : Bool := a0.any fun x => row.getD x false

/-- The first change to the right of a position, or the end of the row. -/
def nextChange (row : List Bool) (a0 : Option Nat) : Nat :=
  ((changes row).find? fun x => !isPassed a0 x).getD row.length

/-- The first change of the row above to the right of a position whose color is not the given one,
or the end of the row. -/
def changeAbove (above : List Bool) (a0 : Option Nat) (color : Bool) : Nat :=
  ((changes above).find? fun x => !isPassed a0 x && above.getD x false != color).getD above.length

/-- The changes of a row, as the row below refers to them. -/
def referenceOf (row : List Bool) : Array Nat :=
  (changes row ++ [row.length, row.length]).toArray

variable {above : List Bool} {a0 : Option Nat} {i : Nat}

theorem size_referenceOf : (referenceOf above).size = (changes above).length + 2 := by
  rw [referenceOf, List.size_toArray, List.length_append]
  rfl

/-- After the changes, a reference holds the end of the row. -/
theorem getD_append_ends (l : List Nat) (columns i : Nat) :
    (l ++ [columns, columns]).toArray.getD i columns = l.getD i columns := by
  rw [Array.getD_eq_getD_getElem?, List.getElem?_toArray, ← List.getD_eq_getElem?_getD]
  by_cases hi : i < l.length
  · rw [List.getD_append _ _ _ _ hi]
  · rw [List.getD_append_right _ _ _ _ (Nat.le_of_not_lt hi), List.getD_eq_default _ _ (Nat.le_of_not_lt hi)]
    match i - l.length with
    | 0 | 1 | _ + 2 => rfl

theorem getD_append_ends_zero {l : List Nat} {columns : Nat} (h : i < (l ++ [columns, columns]).toArray.size) :
    (l ++ [columns, columns]).toArray.getD i 0 = l.getD i columns := by
  rw [← getD_append_ends, Array.getD_eq_getD_getElem?, Array.getD_eq_getD_getElem?,
    Array.getElem?_eq_getElem h]
  rfl

@[simp] theorem isPassed_none (x : Nat) : isPassed none x = false := rfl

@[simp] theorem isPassed_some (y x : Nat) : isPassed (some y) x = decide (x ≤ y) := rfl

/-! ## Increasing positions -/

variable {l : List Nat}

theorem countP_le_getElem (h : l.Pairwise (· < ·)) (hi : i < l.length) :
    l.countP (· ≤ l[i]) = i + 1 := by
  induction l generalizing i with
  | nil => exact absurd hi (Nat.not_lt_zero _)
  | cons c l ih =>
    obtain ⟨hfirst, hrest⟩ := List.pairwise_cons.mp h
    cases i with
    | zero =>
      rw [List.getElem_cons_zero, List.countP_cons_of_pos (by simp), Nat.add_right_cancel_iff,
        List.countP_eq_zero]
      intro x hx
      rw [decide_eq_true_eq, Nat.not_le]
      exact hfirst x hx
    | succ i =>
      have hi' := Nat.lt_of_succ_lt_succ hi
      rw [List.getElem_cons_succ, List.countP_cons_of_pos, ih hrest hi']
      exact decide_eq_true (hfirst _ (List.getElem_mem hi')).le

/-- The change after the one at some index. -/
theorem find?_after (h : l.Pairwise (· < ·)) (hi : i < l.length) :
    l.find? (fun x => !isPassed (some l[i]) x) = l[i + 1]? := by
  induction l generalizing i with
  | nil => exact absurd hi (Nat.not_lt_zero _)
  | cons c l ih =>
    obtain ⟨hfirst, hrest⟩ := List.pairwise_cons.mp h
    cases i with
    | zero =>
      rw [List.getElem_cons_zero, List.find?_cons_of_neg (by simp)]
      cases l with
      | nil => rfl
      | cons d l =>
        refine List.find?_cons_of_pos ?_
        simpa using hfirst d List.mem_cons_self
    | succ i =>
      have hi' := Nat.lt_of_succ_lt_succ hi
      have hlt := hfirst _ (List.getElem_mem hi')
      rw [List.getElem_cons_succ, List.find?_cons_of_neg, ih hrest hi']
      · rfl
      · simpa using hlt.le

/-- The changes have the colors black and white in turn. -/
theorem getD_changes (hi : i < (changes above).length) :
    above.getD (changes above)[i] false = decide (i % 2 = 0) := by
  rw [getD_eq_countP_changes (lt_length_of_mem_changes (List.getElem_mem hi)),
    countP_le_getElem (pairwise_changes above) hi, decide_eq_decide]
  omega

/-- The first position with a property is found. -/
theorem le_of_find?_eq_some {p : Nat → Bool} {c d : Nat} (h : l.Pairwise (· < ·))
    (hfind : l.find? p = some d) (hc : c ∈ l) (hp : p c = true) : d ≤ c := by
  induction l with
  | nil => cases hfind
  | cons e l ih =>
    obtain ⟨hfirst, hrest⟩ := List.pairwise_cons.mp h
    by_cases he : p e = true
    · rw [List.find?_cons_of_pos he] at hfind
      obtain rfl := Option.some.inj hfind
      rcases List.mem_cons.mp hc with rfl | hc
      · exact Nat.le_refl _
      · exact (hfirst c hc).le
    · rw [List.find?_cons_of_neg he] at hfind
      rcases List.mem_cons.mp hc with rfl | hc
      · exact absurd hp he
      · exact ih hrest hfind hc

theorem isPassed_mono {x y : Nat} (h : x ≤ y) (hy : isPassed a0 y = true) :
    isPassed a0 x = true := by
  cases a0 with
  | none => exact hy
  | some a0 => exact decide_eq_true (h.trans (of_decide_eq_true hy))

/-! ## The search of a decoder -/

theorem rewindTo_le (reference : Array Nat) (i : Nat) : rewindTo reference a0 i ≤ i := by
  induction i with
  | zero => exact Nat.le_refl 0
  | succ i ih =>
    rw [rewindTo]
    split
    · exact Nat.le_refl _
    · exact ih.trans (Nat.le_succ i)

section

variable {columns : Nat} (hincreasing : l.Pairwise (· < ·)) (hlt : ∀ c ∈ l, c < columns)

include hincreasing hlt

theorem getElem_le_getD {k : Nat} (hk : k ≤ i) (hlen : k < l.length) : l[k] ≤ l.getD i columns := by
  by_cases hi : i < l.length
  · rw [List.getD_eq_getElem _ _ hi]
    rcases Nat.lt_or_eq_of_le hk with hki | rfl
    · exact (List.pairwise_iff_getElem.mp hincreasing k i hlen hi hki).le
    · exact Nat.le_refl _
  · rw [List.getD_eq_default _ _ (Nat.le_of_not_lt hi)]
    exact (hlt _ (List.getElem_mem hlen)).le

/-- All changes before the index that the search goes on from are passed. -/
theorem isPassed_of_lt_rewindTo (hi : i ≤ (l ++ [columns, columns]).toArray.size) {k : Nat}
    (hk : k < rewindTo (l ++ [columns, columns]).toArray a0 i) (hlen : k < l.length) :
    isPassed a0 l[k] = true := by
  induction i with
  | zero => exact absurd hk (Nat.not_lt_zero _)
  | succ i ih =>
    rw [rewindTo] at hk
    split at hk
    · rename_i hpassed
      rw [getD_append_ends_zero hi] at hpassed
      exact isPassed_mono (getElem_le_getD hincreasing hlt (Nat.le_of_lt_succ hk) hlen) hpassed
    · exact ih (Nat.le_of_succ_le hi) hk

end

/-- What is known of the index that a search from `i` stops at: it skips only changes that are passed
or lead to the wrong color, and stops at one that does not, or at the last index. -/
structure StopsAt (reference : Array Nat) (a0 : Option Nat) (parity i j : Nat) : Prop where
  lt_size : j < reference.size
  skipped : ∀ k, i ≤ k → k < j → isPassed a0 (reference.getD k 0) = true ∨ k % 2 ≠ parity
  stop : j + 1 = reference.size ∨ isPassed a0 (reference.getD j 0) = false ∧ j % 2 = parity

theorem stopsAt_advanceTo (reference : Array Nat) (a0 : Option Nat) (parity fuel : Nat)
    (hi : i < reference.size) (hfuel : reference.size ≤ i + fuel + 1) :
    StopsAt reference a0 parity i (advanceTo reference a0 parity fuel i) := by
  induction fuel generalizing i with
  | zero =>
    refine ⟨hi, fun k hk hlt => absurd hlt (Nat.not_lt.mpr hk), .inl ?_⟩
    rw [advanceTo]
    omega
  | succ fuel ih =>
    rw [advanceTo]
    by_cases hskip : (i + 1 < reference.size &&
        (isPassed a0 (reference.getD i 0) || i % 2 != parity)) = true
    · rw [if_pos hskip]
      rw [Bool.and_eq_true, decide_eq_true_eq, Bool.or_eq_true, bne_iff_ne] at hskip
      obtain ⟨hlast, hbad⟩ := hskip
      have hnext := ih hlast (by omega)
      refine ⟨hnext.lt_size, fun k hk hkj => ?_, hnext.stop⟩
      rcases Nat.lt_or_eq_of_le hk with hk | rfl
      · exact hnext.skipped k hk hkj
      · exact hbad
    · rw [if_neg hskip]
      rw [Bool.and_eq_true, decide_eq_true_eq, Bool.or_eq_true, bne_iff_ne] at hskip
      refine ⟨hi, fun k hk hlt => absurd hlt (Nat.not_lt.mpr hk), ?_⟩
      by_cases hlast : i + 1 < reference.size
      · rw [not_and, not_or, Bool.not_eq_true, not_not] at hskip
        exact .inr (hskip hlast)
      · exact .inl (by omega)

theorem stopsAt_findChange (reference : Array Nat) (a0 : Option Nat) (white : Bool) {cursor : Nat}
    (hcursor : cursor < reference.size) :
    StopsAt reference a0 (if white then 0 else 1) (rewindTo reference a0 cursor)
      (findChange reference cursor a0 white) :=
  stopsAt_advanceTo reference a0 _ reference.size ((rewindTo_le reference cursor).trans_lt hcursor) (by omega)

/-- Of the changes before the index that a search stops at, none is to the right of the position and has the
parity that is looked for, and the one at the index is such a change. -/
theorem StopsAt.isFirst {columns parity i j : Nat}
    (h : StopsAt (l ++ [columns, columns]).toArray a0 parity i j)
    (hpassed : ∀ k (hlen : k < l.length), k < i → isPassed a0 l[k] = true) :
    (∀ k (hlen : k < l.length), k < j → ¬ (isPassed a0 l[k] = false ∧ k % 2 = parity)) ∧
      ∀ hj : j < l.length, isPassed a0 l[j] = false ∧ j % 2 = parity := by
  constructor
  · intro k hlen hkj hgood
    rcases Nat.lt_or_ge k i with hki | hik
    · rw [hpassed k hlen hki] at hgood
      cases hgood.1
    · have hskipped := h.skipped k hik hkj
      rw [getD_append_ends_zero (hkj.trans h.lt_size), List.getD_eq_getElem _ _ hlen, hgood.1] at hskipped
      exact hskipped.elim (by decide) (fun hne => hne hgood.2)
  · intro hj
    have hstop := h.stop
    rw [getD_append_ends_zero h.lt_size, List.getD_eq_getElem _ _ hj, List.size_toArray, List.length_append] at hstop
    exact hstop.resolve_left (by rw [List.length_cons, List.length_singleton]; omega)

/-- Whether a change of the row above is the one that is looked for. -/
theorem leadsAway_iff (white : Bool) (hi : i < (changes above).length) :
    (!isPassed a0 (changes above)[i] && above.getD (changes above)[i] false != !white) = true ↔
      isPassed a0 (changes above)[i] = false ∧ i % 2 = if white then 0 else 1 := by
  rw [getD_changes hi, Bool.and_eq_true, Bool.not_eq_true']
  refine and_congr_right fun _ => ?_
  cases white <;> simp

theorem StopsAt.values {white : Bool} {i j : Nat}
    (h : StopsAt (referenceOf above) a0 (if white then 0 else 1) i j)
    (hpassed : ∀ k (hlen : k < (changes above).length), k < i →
      isPassed a0 (changes above)[k] = true) :
    (referenceOf above).getD j above.length = changeAbove above a0 (!white) ∧
      (referenceOf above).getD (j + 1) above.length =
        nextChange above (some (changeAbove above a0 (!white))) := by
  obtain ⟨hbad, hgood⟩ := h.isFirst hpassed
  rw [referenceOf, getD_append_ends, getD_append_ends, changeAbove, nextChange]
  by_cases hj : j < (changes above).length
  · have hfind : (changes above).find? (fun x => !isPassed a0 x && above.getD x false != !white) =
        some (changes above)[j] := by
      rw [List.find?_eq_some_iff_getElem]
      refine ⟨(leadsAway_iff white hj).mpr (hgood hj), j, hj, rfl, fun k hk => ?_⟩
      have hlen := hk.trans hj
      rw [Bool.not_eq_true', ← Bool.not_eq_true, leadsAway_iff white hlen]
      exact hbad k hlen hk
    rw [hfind, Option.getD_some, find?_after (pairwise_changes above) hj, List.getD_eq_getElem _ _ hj,
      List.getD_eq_getElem?_getD]
    exact ⟨rfl, rfl⟩
  · have hfind : (changes above).find? (fun x => !isPassed a0 x && above.getD x false != !white) =
        none := by
      rw [List.find?_eq_none]
      intro x hx
      obtain ⟨k, hlen, rfl⟩ := List.getElem_of_mem hx
      rw [leadsAway_iff white hlen]
      exact hbad k hlen (by omega)
    have hlast : (changes above).find? (fun x => !isPassed (some above.length) x) = none := by
      rw [List.find?_eq_none]
      intro x hx
      simpa using (lt_length_of_mem_changes hx).le
    rw [hfind, Option.getD_none, hlast, Option.getD_none,
      List.getD_eq_default _ _ (Nat.le_of_not_lt hj),
      List.getD_eq_default _ _ ((Nat.le_of_not_lt hj).trans (Nat.le_succ j))]
    exact ⟨rfl, rfl⟩

/-- The search for a change above finds it and the one after it, wherever it begins. -/
theorem findChange_spec (a0 : Option Nat) (white : Bool) {cursor : Nat}
    (hcursor : cursor < (referenceOf above).size) :
    findChange (referenceOf above) cursor a0 white < (referenceOf above).size ∧
      (referenceOf above).getD (findChange (referenceOf above) cursor a0 white) above.length =
        changeAbove above a0 (!white) ∧
      (referenceOf above).getD (findChange (referenceOf above) cursor a0 white + 1) above.length =
        nextChange above (some (changeAbove above a0 (!white))) := by
  have hstops := stopsAt_findChange (referenceOf above) a0 white hcursor
  exact ⟨hstops.lt_size, hstops.values fun _ hlen hk => isPassed_of_lt_rewindTo (pairwise_changes above)
    (fun _ => lt_length_of_mem_changes) hcursor.le hk hlen⟩

/-! ## Searches in increasing positions -/

/-- Whether the change at an index is to the right of a position and leads away from a color. Changes to black have
even indices. -/
def isAway (a0 : Option Nat) (white : Bool) (change index : Nat) : Bool :=
  a0.all (· < change) && index % 2 == if white then 0 else 1

/-- The first of some changes that is to the right of a position and leads away from a color, and the one after it.
Where there is none, the end of the row takes its place. -/
def changesAway (columns : Nat) (changes : List Nat) (a0 : Option Nat) (white : Bool) : Nat × Nat :=
  match changes.zipIdx.find? fun (change, index) => isAway a0 white change index with
  | some (change, index) => (change, changes.getD (index + 1) columns)
  | none => (columns, columns)

section

variable {changes : List Nat} {columns cursor : Nat} {white : Bool}

theorem isAway_iff {change index : Nat} :
    isAway a0 white change index = true ↔ isPassed a0 change = false ∧ index % 2 = if white then 0 else 1 := by
  have hright : a0.all (· < change) = !isPassed a0 change := by
    cases a0 with
    | none => rfl
    | some x =>
      rw [isPassed_some, Option.all_some, ← decide_not]
      exact decide_eq_decide.mpr Nat.not_le.symm
  rw [isAway, Bool.and_eq_true, beq_iff_eq, hright, Bool.not_eq_true']

theorem find?_isAway_eq_some {j : Nat} (hj : j < changes.length) (hgood : isAway a0 white changes[j] j = true)
    (hbad : ∀ k (hlen : k < changes.length), k < j → isAway a0 white changes[k] k = false) :
    changes.zipIdx.find? (fun (change, index) => isAway a0 white change index) = some (changes[j], j) := by
  have hj' : j < changes.zipIdx.length := by rwa [List.length_zipIdx]
  have hentry {k : Nat} (hk : k < changes.zipIdx.length) (hlen : k < changes.length) :
      changes.zipIdx[k] = (changes[k], k) := by
    rw [List.getElem_zipIdx, Nat.zero_add]
  rw [List.find?_eq_some_iff_getElem]
  refine ⟨hgood, j, hj', hentry hj' hj, fun k hk => ?_⟩
  have hlen := hk.trans hj
  rw [hentry (hk.trans hj') hlen, Bool.not_eq_true']
  exact hbad k hlen hk

theorem find?_isAway_eq_none (hbad : ∀ k (hlen : k < changes.length), isAway a0 white changes[k] k = false) :
    changes.zipIdx.find? (fun (change, index) => isAway a0 white change index) = none := by
  rw [List.find?_eq_none]
  rintro ⟨change, index⟩ hmem
  rw [Bool.not_eq_true]
  obtain ⟨hlen, hchange⟩ := List.mem_zipIdx' hmem
  rw [hchange]
  exact hbad index hlen

/-- A search finds the same changes from every index. -/
theorem findChange_eq_changesAway (hincreasing : changes.Pairwise (· < ·)) (hlt : ∀ c ∈ changes, c < columns)
    (hcursor : cursor < (changes ++ [columns, columns]).toArray.size) (a0 : Option Nat) (white : Bool) :
    let reference := (changes ++ [columns, columns]).toArray
    let found := findChange reference cursor a0 white
    found < reference.size ∧
      (reference.getD found columns, reference.getD (found + 1) columns) = changesAway columns changes a0 white := by
  intro reference found
  have hstops := stopsAt_findChange reference a0 white hcursor
  obtain ⟨hbad, hgood⟩ := hstops.isFirst fun k hlen hk =>
    isPassed_of_lt_rewindTo hincreasing hlt hcursor.le hk hlen
  simp only [← isAway_iff, Bool.not_eq_true] at hbad hgood
  refine ⟨hstops.lt_size, ?_⟩
  rw [getD_append_ends, getD_append_ends, changesAway]
  by_cases hfound : found < changes.length
  · rw [find?_isAway_eq_some hfound (hgood hfound) hbad, List.getD_eq_getElem _ _ hfound]
  · have hpast : changes.length ≤ found := Nat.le_of_not_lt hfound
    rw [find?_isAway_eq_none fun k hlen => hbad k hlen (hlen.trans_le hpast), List.getD_eq_default _ _ hpast,
      List.getD_eq_default _ _ (hpast.trans (Nat.le_succ found))]

/-! ## Rows after other searches -/

variable {reference : Array Nat} {s t : RowState}

/-- Whether two states in the middle of a row differ at most in where the search for a change above resumes. -/
structure RowState.Alike (reference : Array Nat) (s t : RowState) : Prop where
  left_lt : s.cursor < reference.size
  right_lt : t.cursor < reference.size
  eq_withCursor : t = { s with cursor := t.cursor }

/-- The next mode leaves states alike, or is wrong in both. -/
theorem RowState.Alike.step (h : s.Alike reference t) (hincreasing : changes.Pairwise (· < ·))
    (hlt : ∀ c ∈ changes, c < columns) (hreference : reference = (changes ++ [columns, columns]).toArray) :
    Except.Rel (Alike reference) (s.step columns reference) (t.step columns reference) := by
  obtain ⟨hs, ht, heq⟩ := h
  rw [heq]
  generalize t.cursor = other at ht
  subst hreference
  obtain ⟨hfound, hvalues⟩ := findChange_eq_changesAway hincreasing hlt hs s.a0 s.white
  obtain ⟨hother, hsame⟩ := findChange_eq_changesAway hincreasing hlt ht s.a0 s.white
  obtain ⟨hfirst, hsecond⟩ := Prod.mk.inj (hsame.trans hvalues.symm)
  unfold RowState.step
  dsimp only
  rw [hfirst, hsecond]
  refine (Except.rel_self (modeTree.read s.bits)).bind ?_
  rintro ⟨mode, bits⟩ _ rfl
  cases mode with
  | pass => exact .ok ⟨hfound, hother, rfl⟩
  | horizontal =>
    refine (Except.rel_self (readRun s.white bits)).bind ?_
    rintro ⟨first, bits⟩ _ rfl
    refine (Except.rel_self (readRun (!s.white) bits)).bind ?_
    rintro ⟨second, bits⟩ _ rfl
    exact .ok ⟨hfound, hother, rfl⟩
  | vertical offset => exact .ite (.error _) (.ok ⟨hfound, hother, rfl⟩)

/-- What is read of a row does not depend on where the first search begins. -/
theorem RowState.Alike.readModes_eq (h : s.Alike reference t) (hincreasing : changes.Pairwise (· < ·))
    (hlt : ∀ c ∈ changes, c < columns) (hreference : reference = (changes ++ [columns, columns]).toArray)
    (fuel : Nat) : readModes columns reference fuel s = readModes columns reference fuel t := by
  induction fuel generalizing s t with
  | zero => rfl
  | succ fuel ih =>
    have hstep := h.step hincreasing hlt hreference
    rw [readModes, readModes, h.eq_withCursor]
    refine if_congr Iff.rfl rfl ?_
    rw [← h.eq_withCursor]
    generalize s.step columns reference = left at hstep
    generalize t.step columns reference = right at hstep
    cases hstep with
    | ok hnext => exact ih hnext
    | error e => rfl

/-- Wherever a search begins, it finds the first change above that is to the right of the position and leads away
from the color, and the one after it. So a row is read alike whatever searches have been made before. -/
theorem search_forgets_cursor (hincreasing : changes.Pairwise (· < ·)) (hlt : ∀ c ∈ changes, c < columns) :
    let reference := (changes ++ [columns, columns]).toArray
    (∀ cursor < reference.size, ∀ (a0 : Option Nat) (white : Bool),
      let found := findChange reference cursor a0 white
      found < reference.size ∧
        (reference.getD found columns, reference.getD (found + 1) columns) =
          changesAway columns changes a0 white) ∧
    ∀ (s : RowState) (fuel : Nat), s.cursor < reference.size → ∀ cursor < reference.size,
      readModes columns reference fuel { s with cursor } = readModes columns reference fuel s := by
  intro reference
  refine ⟨fun cursor hcursor => findChange_eq_changesAway hincreasing hlt hcursor, fun s fuel hs cursor hcursor => ?_⟩
  have halike : ({ s with cursor } : RowState).Alike reference s := ⟨hcursor, hs, rfl⟩
  exact halike.readModes_eq hincreasing hlt rfl fuel

/-- The row above has a bar from the third to the sixth of eight pixels, and the position is in the middle of it. From
each index, black finds the end of the bar, and white no change. -/
theorem search_forgets_cursor_bar :
    [2, 6].Pairwise (· < ·) ∧ (∀ c ∈ [2, 6], c < 8) ∧ ∀ cursor < 4,
      let above := #[2, 6, 8, 8]
      let black := findChange above cursor (some 3) false
      let white := findChange above cursor (some 3) true
      (above.getD black 8, above.getD (black + 1) 8) = (6, 8) ∧
        (above.getD white 8, above.getD (white + 1) 8) = (8, 8) := by
  have hincreasing : [2, 6].Pairwise (· < ·) := by decide
  have hlt : ∀ c ∈ [2, 6], c < 8 := by decide
  obtain ⟨hsearch, -⟩ := search_forgets_cursor hincreasing hlt
  refine ⟨hincreasing, hlt, fun cursor hcursor => ⟨?_, ?_⟩⟩
  · exact (hsearch cursor hcursor (some 3) false).2
  · exact (hsearch cursor hcursor (some 3) true).2


end

end Folio.Fax
