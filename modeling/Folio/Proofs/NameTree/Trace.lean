import Folio.Proofs.NameTree.Search

/-!
# The kids that a search tries

The limits of a node decide whether it answers for itself, asks one kid or halves the range of its
kids. In the last case the answers so far decide which kid is asked next. Here that sequence is
written down beside the search: whatever a node comes to is its own answer or that of a kid it tries,
a kid whose search does not end takes the node with it, and kids that are not tried do not count.
-/

namespace Folio.NameTree

/-- How a node comes to its outcome. -/
inductive Route where
  /-- It answers for itself. -/
  | answer (outcome : Probe)
  /-- It asks one kid. -/
  | kid (index : Nat)
  /-- It halves the range of so many kids. -/
  | halve (count : Nat)

/-- The route that the search for a name takes at a node. -/
def route (store : Store) (n : NameNode) (name : String) : Route :=
  if n.kids.isSome then
    match n.limits with
    | none => .halve n.kidCount
    | some (lower, upper) =>
      if name < lower then .answer .below
      else if lower = name then .kid 0
      else if upper < name then .answer .above
      else if upper = name then .kid (n.kidCount - 1)
      else .halve n.kidCount
  else if n.names.isSome then .answer (n.probeLeaf store name)
  else .answer .miss

/-- What a route comes to, if `probe` tells what each kid comes to. -/
def Route.outcome (probe : Nat → Probe) : Route → Probe
  | .answer outcome => outcome
  | .kid index => probe index
  | .halve count => searchKids probe (count + 1) 0 count

/-- The kids that are tried in turn up to one that makes further kids pointless. -/
def scanned (probe : Nat → Probe) : List Nat → List Nat
  | [] => []
  | i :: rest => i :: if (probe i).isFinal then [] else scanned probe rest

/-- The kids that are tried as a range of kids is halved. -/
def halved (probe : Nat → Probe) : Nat → Nat → Nat → List Nat
  | 0, _, _ => []
  | fuel + 1, first, last =>
    if last ≤ first then []
    else
      let pivot := first + (last - 1 - first) / 2
      pivot ::
        match probe pivot with
        | .below => halved probe fuel first pivot
        | .above => halved probe fuel (pivot + 1) last
        | .exhausted =>
          scanned probe (((List.range (last - first)).map (first + ·)).filter (· ≠ pivot))
        | _ => []

/-- The kids that are tried on a route. -/
def Route.tried (probe : Nat → Probe) : Route → List Nat
  | .answer _ => []
  | .kid index => [index]
  | .halve count => halved probe (count + 1) 0 count

/-- Whether `q` tells the same as `p` of every kid whose search ends for `p`. -/
def Refines (p q : Nat → Probe) : Prop := ∀ i, p i ≠ .endless → q i = p i

variable {p q : Nat → Probe}

theorem probe_succ (store : Store) (n : NameNode) (name : String) (levels : Nat) :
    n.probe store name (levels + 1) =
      (route store n name).outcome (probeAt store n name levels) := by
  show (if n.kids.isSome then _ else _) = _
  unfold route
  by_cases hkids : n.kids.isSome
  · rw [if_pos hkids, if_pos hkids]
    cases n.limits with
    | none => rfl
    | some limits =>
      obtain ⟨lower, upper⟩ := limits
      simp only [apply_ite (Route.outcome _)]
      rfl
  · rw [if_neg hkids, if_neg hkids]
    simp only [apply_ite (Route.outcome _)]
    rfl

/-- A node that answers for itself is a leaf, or it finds nothing. -/
theorem answer_cases {store : Store} {n : NameNode} {name : String} {outcome : Probe}
    (h : route store n name = .answer outcome) :
    (n.kids = none ∧ outcome = n.probeLeaf store name) ∨
      outcome = .miss ∨ outcome = .below ∨ outcome = .above := by
  unfold route at h
  by_cases hkids : n.kids.isSome
  · rw [if_pos hkids] at h
    cases hlimits : n.limits with
    | none => simp [hlimits] at h
    | some limits =>
      simp only [hlimits] at h
      split at h
      · exact .inr (.inr (.inl (Route.answer.inj h).symm))
      split at h
      · cases h
      split at h
      · exact .inr (.inr (.inr (Route.answer.inj h).symm))
      split at h
      · cases h
      · cases h
  · rw [if_neg hkids] at h
    split at h
    · exact .inl ⟨Option.not_isSome_iff_eq_none.mp hkids, (Route.answer.inj h).symm⟩
    · exact .inr (.inl (Route.answer.inj h).symm)

/-! ## Outcomes are those of kids -/

theorem scanKids_cases (p : Nat → Probe) (indices : List Nat) :
    scanKids p indices = .exhausted ∨ ∃ i ∈ scanned p indices, scanKids p indices = p i := by
  induction indices with
  | nil => exact .inl rfl
  | cons i rest ih =>
    simp only [scanKids, scanned]
    by_cases hfinal : (p i).isFinal
    · rw [if_pos hfinal, if_pos hfinal]
      exact .inr ⟨i, List.mem_singleton_self i, rfl⟩
    · rw [if_neg hfinal, if_neg hfinal]
      rcases ih with h | ⟨j, hj, h⟩
      · exact .inl h
      · exact .inr ⟨j, List.mem_cons_of_mem _ hj, h⟩

theorem searchKids_cases (p : Nat → Probe) (fuel first last : Nat) :
    searchKids p fuel first last = .exhausted ∨
      ∃ i ∈ halved p fuel first last, searchKids p fuel first last = p i := by
  induction fuel generalizing first last with
  | zero => exact .inl rfl
  | succ fuel ih =>
    rw [searchKids, halved]
    by_cases hempty : last ≤ first
    · rw [if_pos hempty]
      exact .inl rfl
    rw [if_neg hempty, if_neg hempty]
    generalize first + (last - 1 - first) / 2 = pivot
    dsimp only
    have hrest {outcome : Probe} {indices : List Nat}
        (h : outcome = .exhausted ∨ ∃ i ∈ indices, outcome = p i) :
        outcome = .exhausted ∨ ∃ i ∈ pivot :: indices, outcome = p i := by
      rcases h with h | ⟨i, hi, h⟩
      · exact .inl h
      · exact .inr ⟨i, List.mem_cons_of_mem _ hi, h⟩
    cases hpivot : p pivot with
    | below => exact hrest (ih first pivot)
    | above => exact hrest (ih (pivot + 1) last)
    | exhausted => exact hrest (scanKids_cases p _)
    | hit _ | miss | endless => exact .inr ⟨pivot, List.mem_cons_self, hpivot.symm⟩

theorem Route.outcome_cases (p : Nat → Probe) (r : Route) :
    (∃ outcome, r = .answer outcome) ∨ r.outcome p = .exhausted ∨
      ∃ i ∈ r.tried p, r.outcome p = p i := by
  cases r with
  | answer outcome => exact .inl ⟨outcome, rfl⟩
  | kid index => exact .inr (.inr ⟨index, List.mem_singleton_self index, rfl⟩)
  | halve count => exact .inr (searchKids_cases p (count + 1) 0 count)

/-! ## A search that does not end takes the node with it -/

theorem scanKids_endless {indices : List Nat} {i : Nat} (hi : i ∈ scanned p indices)
    (h : p i = .endless) : scanKids p indices = .endless := by
  induction indices with
  | nil => cases hi
  | cons j rest ih =>
    simp only [scanKids, scanned] at hi ⊢
    rcases List.mem_cons.mp hi with rfl | hi
    · rw [h]
      rfl
    · by_cases hfinal : (p j).isFinal
      · rw [if_pos hfinal] at hi
        cases hi
      · rw [if_neg hfinal] at hi ⊢
        exact ih hi

theorem searchKids_endless {fuel first last i : Nat} (hi : i ∈ halved p fuel first last)
    (h : p i = .endless) : searchKids p fuel first last = .endless := by
  induction fuel generalizing first last with
  | zero => cases hi
  | succ fuel ih =>
    rw [searchKids]
    rw [halved] at hi
    by_cases hempty : last ≤ first
    · rw [if_pos hempty] at hi
      cases hi
    rw [if_neg hempty] at hi ⊢
    generalize first + (last - 1 - first) / 2 = pivot at hi ⊢
    dsimp only at hi ⊢
    rcases List.mem_cons.mp hi with rfl | hi
    · rw [h]
    cases hpivot : p pivot with
    | below => exact ih (by simpa only [hpivot] using hi)
    | above => exact ih (by simpa only [hpivot] using hi)
    | exhausted => exact scanKids_endless (by simpa only [hpivot] using hi) h
    | hit _ | miss | endless => simp [hpivot] at hi

theorem Route.outcome_endless {r : Route} {i : Nat} (hi : i ∈ r.tried p) (h : p i = .endless) :
    r.outcome p = .endless := by
  cases r with
  | answer outcome => cases hi
  | kid index =>
    obtain rfl := List.mem_singleton.mp hi
    exact h
  | halve count => exact searchKids_endless hi h

/-! ## Only the kids that are tried count -/

theorem scanned_congr {indices : List Nat} (h : ∀ i ∈ scanned p indices, q i = p i) :
    scanned q indices = scanned p indices ∧ scanKids q indices = scanKids p indices := by
  induction indices with
  | nil => exact ⟨rfl, rfl⟩
  | cons i rest ih =>
    simp only [scanned, scanKids] at h ⊢
    rw [h i List.mem_cons_self]
    by_cases hfinal : (p i).isFinal
    · simp only [hfinal, if_true, and_self]
    · simp only [hfinal, Bool.false_eq_true, if_false] at h ⊢
      obtain ⟨htried, houtcome⟩ := ih fun j hj => h j (List.mem_cons_of_mem _ hj)
      exact ⟨congrArg (i :: ·) htried, houtcome⟩

theorem halved_congr {fuel first last : Nat} (h : ∀ i ∈ halved p fuel first last, q i = p i) :
    halved q fuel first last = halved p fuel first last ∧
      searchKids q fuel first last = searchKids p fuel first last := by
  induction fuel generalizing first last with
  | zero => exact ⟨rfl, rfl⟩
  | succ fuel ih =>
    rw [searchKids, searchKids, halved, halved]
    rw [halved] at h
    by_cases hempty : last ≤ first
    · simp only [if_pos hempty, and_self]
    simp only [if_neg hempty] at h ⊢
    generalize first + (last - 1 - first) / 2 = pivot at h ⊢
    rw [h pivot List.mem_cons_self]
    have hrest : ∀ i, i ∈ _ → q i = p i := fun i hi => h i (List.mem_cons_of_mem _ hi)
    cases hpivot : p pivot with
    | below =>
      simp only [hpivot] at hrest
      obtain ⟨htried, houtcome⟩ := ih hrest
      exact ⟨congrArg (pivot :: ·) htried, houtcome⟩
    | above =>
      simp only [hpivot] at hrest
      obtain ⟨htried, houtcome⟩ := ih hrest
      exact ⟨congrArg (pivot :: ·) htried, houtcome⟩
    | exhausted =>
      simp only [hpivot] at hrest
      obtain ⟨htried, houtcome⟩ := scanned_congr hrest
      exact ⟨congrArg (pivot :: ·) htried, houtcome⟩
    | hit _ | miss | endless => exact ⟨rfl, rfl⟩

theorem Route.congr {r : Route} (h : ∀ i ∈ r.tried p, q i = p i) :
    r.tried q = r.tried p ∧ r.outcome q = r.outcome p := by
  cases r with
  | answer outcome => exact ⟨rfl, rfl⟩
  | kid index => exact ⟨rfl, h index (List.mem_singleton_self index)⟩
  | halve count => exact halved_congr h

/-! ## Knowing more of the kids -/

theorem Refines.scanned_subset (h : Refines p q) (indices : List Nat) :
    scanned p indices ⊆ scanned q indices := by
  induction indices with
  | nil => exact List.Subset.refl _
  | cons i rest ih =>
    simp only [scanned]
    by_cases hend : p i = .endless
    · rw [hend]
      exact List.cons_subset_cons i (List.nil_subset _)
    · rw [h i hend]
      refine List.cons_subset_cons i ?_
      by_cases hfinal : (p i).isFinal
      · simp only [hfinal, if_true, List.Subset.refl]
      · simpa only [hfinal, Bool.false_eq_true, if_false] using ih

theorem Refines.halved_subset (h : Refines p q) (fuel first last : Nat) :
    halved p fuel first last ⊆ halved q fuel first last := by
  induction fuel generalizing first last with
  | zero => exact List.Subset.refl _
  | succ fuel ih =>
    rw [halved, halved]
    by_cases hempty : last ≤ first
    · simp only [if_pos hempty, List.Subset.refl]
    simp only [if_neg hempty]
    generalize first + (last - 1 - first) / 2 = pivot
    refine List.cons_subset_cons pivot ?_
    by_cases hend : p pivot = .endless
    · rw [hend]
      exact List.nil_subset _
    rw [h pivot hend]
    cases p pivot with
    | below => exact ih first pivot
    | above => exact ih (pivot + 1) last
    | exhausted => exact h.scanned_subset _
    | hit _ | miss | endless => exact List.Subset.refl _

theorem Refines.tried_subset (h : Refines p q) (r : Route) : r.tried p ⊆ r.tried q := by
  cases r with
  | answer outcome => exact List.Subset.refl _
  | kid index => exact List.Subset.refl _
  | halve count => exact h.halved_subset _ _ _

/-- A route whose search ends tries the same kids and comes to the same if more is known. -/
theorem Refines.congr (h : Refines p q) {r : Route} (hend : r.outcome p ≠ .endless) :
    r.tried q = r.tried p ∧ r.outcome q = r.outcome p := by
  refine Route.congr fun i hi => h i ?_
  intro hi'
  exact hend (Route.outcome_endless hi hi')

end Folio.NameTree
