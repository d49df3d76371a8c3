import Folio.Proofs.NameTree.Soundness

/-!
# Recovering from exhausted kids

When the kid in the middle of a range has no kid left to search, the limits of the kids cannot be trusted,
and all others of the range are tried in order. Main statement: `recovers_iff`, in a tree without circles this
finds a name that one of them has except where another one, which is tried before, answers that it lies in its
range and is not there. The trial stops at that answer.
-/

namespace Folio

/-- Whether the name was found. -/
def Probe.IsHit (p : Probe) : Prop := ∃ value, p = .hit value

theorem Probe.IsHit.isFinal {p : Probe} (h : p.IsHit) : p.isFinal = true := by
  obtain ⟨value, rfl⟩ := h
  rfl

namespace NameTree

/-- The kid in the middle of a range of kids from `first` up to `last` exclusively. -/
def middle (first last : Nat) : Nat := first + (last - 1 - first) / 2

/-- Whether a kid is another one of the range than that in the middle. -/
def IsOther (first last i : Nat) : Prop := first ≤ i ∧ i < last ∧ i ≠ middle first last

/-- Whether a search of a range of kids, where the one in the middle is exhausted, finds a name that another
kid of the range has. -/
def Recovers (probe : Nat → Probe) (first last : Nat) : Prop :=
  probe (middle first last) = .exhausted → (∃ i, IsOther first last i ∧ (probe i).IsHit) →
    ∀ fuel, (searchKids probe (fuel + 1) first last).IsHit

/-- Whether there are kids that have the name, other than that in the middle, and one before all of them
answers that it does not have it. -/
def MissesFirst (probe : Nat → Probe) (first last : Nat) : Prop :=
  (∃ i, IsOther first last i ∧ (probe i).IsHit) ∧
    ∃ i, IsOther first last i ∧ probe i = .miss ∧ ∀ j, IsOther first last j → (probe j).IsHit → i < j

variable {store : Store} {d : Dict} {name : String} {probe : Nat → Probe} {first last : Nat}

/-! ## Trying the other kids -/

/-- The other kids of a range, in order. -/
def others (first last : Nat) : List Nat :=
  ((List.range (last - first)).map (first + ·)).filter (· ≠ middle first last)

theorem mem_others {i : Nat} : i ∈ others first last ↔ IsOther first last i := by
  simp only [others, List.mem_filter, List.mem_map, List.mem_range, decide_eq_true_iff, IsOther, ← and_assoc]
  refine and_congr_left fun _ => ⟨?_, fun ⟨hfirst, hlast⟩ => ⟨i - first, by omega, by omega⟩⟩
  rintro ⟨k, hk, rfl⟩
  omega

theorem others_sorted (first last : Nat) : (others first last).Pairwise (· < ·) := by
  refine List.Pairwise.filter _ (List.pairwise_map.mpr ?_)
  exact List.pairwise_lt_range.imp fun h => Nat.add_lt_add_left h first

theorem searchKids_eq_scanKids (hmiddle : probe (middle first last) = .exhausted) (h : first < last)
    (fuel : Nat) : searchKids probe (fuel + 1) first last = scanKids probe (others first last) := by
  have hmiddle' : probe (first + (last - 1 - first) / 2) = .exhausted := hmiddle
  rw [searchKids, if_neg (Nat.not_le.mpr h)]
  simp only [hmiddle']
  rfl

theorem scanKids_eq_of_find? {indices : List Nat} {i : Nat}
    (h : indices.find? (fun i => (probe i).isFinal) = some i) : scanKids probe indices = probe i := by
  induction indices with
  | nil => cases h
  | cons j rest ih =>
    rw [scanKids]
    rw [List.find?_cons] at h
    cases hfinal : (probe j).isFinal with
    | true =>
      simp only [hfinal, Option.some.injEq] at h
      rw [if_pos rfl, h]
    | false =>
      simp only [hfinal] at h
      rw [if_neg Bool.false_ne_true, ih h]

/-- The first kid with a final answer settles the trial, so it finds a name that one of the kids has unless an
answer that it is not there comes first. -/
theorem searchKids_cases_of_hit (hmiddle : probe (middle first last) = .exhausted)
    (hend : ∀ i, probe i ≠ .endless) (hhit : ∃ i, IsOther first last i ∧ (probe i).IsHit) (fuel : Nat) :
    ((searchKids probe (fuel + 1) first last).IsHit ∧ ¬ MissesFirst probe first last) ∨
      (searchKids probe (fuel + 1) first last = .miss ∧ MissesFirst probe first last) := by
  obtain ⟨i, hi, hfound⟩ := hhit
  have hlt : first < last := Nat.lt_of_le_of_lt hi.1 hi.2.1
  obtain ⟨k, hk⟩ : ∃ k, (others first last).find? (fun i => (probe i).isFinal) = some k :=
    Option.isSome_iff_exists.mp (List.find?_isSome.mpr ⟨i, mem_others.mpr hi, hfound.isFinal⟩)
  rw [searchKids_eq_scanKids hmiddle hlt, scanKids_eq_of_find? hk]
  obtain ⟨hfinal, before, after, hothers, hbefore⟩ := List.find?_eq_some_iff_append.mp hk
  -- No kid before this one has a final answer.
  have hfirst (j : Nat) (hj : IsOther first last j) (hjfinal : (probe j).isFinal = true) : k ≤ j := by
    have hsorted := others_sorted first last
    rw [hothers] at hsorted
    have hmem := mem_others.mpr hj
    rw [hothers] at hmem
    rcases List.mem_append.mp hmem with hmem | hmem
    · simpa [hjfinal] using hbefore j hmem
    · rcases List.mem_cons.mp hmem with rfl | hmem
      · exact Nat.le_refl _
      · exact ((List.pairwise_cons.mp (List.pairwise_append.mp hsorted).2.1).1 j hmem).le
  have hother : IsOther first last k := mem_others.mp (List.mem_of_find?_eq_some hk)
  cases hanswer : probe k with
  | hit value =>
    refine .inl ⟨⟨value, rfl⟩, fun ⟨_, j, hj, hmiss, hbeforeHits⟩ => ?_⟩
    have hjk : j < k := hbeforeHits k hother ⟨value, hanswer⟩
    exact absurd (hfirst j hj (by rw [hmiss]; rfl)) (Nat.not_le.mpr hjk)
  | miss =>
    refine .inr ⟨rfl, ⟨i, hi, hfound⟩, k, hother, hanswer, fun j hj hhit => ?_⟩
    refine Nat.lt_of_le_of_ne (hfirst j hj hhit.isFinal) ?_
    rintro rfl
    obtain ⟨value, hvalue⟩ := hhit
    rw [hanswer] at hvalue
    cases hvalue
  | endless => exact absurd hanswer (hend k)
  | below | above | exhausted =>
    rw [hanswer] at hfinal
    cases hfinal

/-! ## Trees without circles -/

/-- Whether the kids below a dictionary nowhere form a circle. -/
def Acyclic (store : Store) (d : Dict) : Prop :=
  ∀ e, Relation.ReflTransGen (IsKid store) d e → ¬ Relation.TransGen (IsKid store) e e

theorem HeightWithin.exists_lt_of_transGen {height : Nat} {e : Dict} (h : HeightWithin store height d)
    (hpath : Relation.TransGen (IsKid store) d e) : ∃ lower < height, HeightWithin store lower e := by
  have hkid {height : Nat} {d e : Dict} (h : HeightWithin store height d) (he : IsKid store d e) :
      ∃ lower < height, HeightWithin store lower e := by
    cases height with
    | zero => exact absurd he (h e)
    | succ height => exact ⟨height, Nat.lt_succ_self height, h e he⟩
  induction hpath with
  | single he => exact hkid h he
  | tail _ he ih =>
    obtain ⟨lower, hlt, hlower⟩ := ih
    obtain ⟨lowest, hlt', hlowest⟩ := hkid hlower he
    exact ⟨lowest, hlt'.trans hlt, hlowest⟩

theorem HeightWithin.not_transGen {height : Nat} (h : HeightWithin store height d) :
    ¬ Relation.TransGen (IsKid store) d d := by
  intro hcircle
  induction height using Nat.strongRecOn with
  | ind height ih =>
    obtain ⟨lower, hlt, hlower⟩ := h.exists_lt_of_transGen hcircle
    exact ih lower hlt hlower

theorem HeightWithin.acyclic {height : Nat} (h : HeightWithin store height d) : Acyclic store d := by
  intro e hpath
  rcases Relation.reflTransGen_iff_eq_or_transGen.mp hpath with rfl | hpath
  · exact h.not_transGen
  · obtain ⟨lower, -, hlower⟩ := h.exists_lt_of_transGen hpath
    exact hlower.not_transGen

/-- A tree that is higher than so many steps has a path of so many and one more. -/
theorem exists_isChain_of_not_heightWithin {height : Nat} (h : ¬ HeightWithin store height d) :
    ∃ path : List Dict, path.length = height + 1 ∧ List.IsChain (IsKid store) (d :: path) := by
  induction height generalizing d with
  | zero =>
    obtain ⟨e, he⟩ := not_forall_not.mp h
    exact ⟨[e], rfl, List.isChain_cons_cons.mpr ⟨he, List.isChain_singleton e⟩⟩
  | succ height ih =>
    obtain ⟨e, he⟩ := not_forall.mp h
    obtain ⟨hkid, hhigh⟩ := Classical.not_imp.mp he
    obtain ⟨path, hlength, hpath⟩ := ih hhigh
    exact ⟨e :: path, by rw [List.length_cons, hlength], List.isChain_cons_cons.mpr ⟨hkid, hpath⟩⟩

/-- A path without circles has no dictionary twice, so it is not longer than the document has objects. -/
theorem Acyclic.heightWithin (h : Acyclic store d) :
    HeightWithin store (store.nodes + (Object.dict d).nodes) d := by
  by_contra hhigh
  obtain ⟨path, hlength, hpath⟩ := exists_isChain_of_not_heightWithin hhigh
  have hpairs : (d :: path).Pairwise (Relation.TransGen (IsKid store)) :=
    (hpath.imp fun _ _ => Relation.TransGen.single).pairwise
  obtain ⟨hroot, hpairs⟩ := List.pairwise_cons.mp hpairs
  have hnodup : path.Nodup := by
    refine hpairs.imp_of_mem fun {a b} ha _ hab heq => ?_
    subst heq
    exact h a (hroot a ha).to_reflTransGen hab
  have hpool : ∀ e ∈ path, .dict e ∈ pool store d := by
    intro e he
    have hbelow := hroot e he
    clear he
    induction hbelow with
    | single hkid =>
      exact hkid.mem_pool (List.subset_append_left _ _) (fun o => parts_subset_pool) (mem_pool_self store d)
    | tail _ hkid ih =>
      exact hkid.mem_pool (List.subset_append_left _ _) (fun o => parts_subset_pool) ih
  have hinj : Function.Injective Object.dict := fun a b hab => Object.dict.inj hab
  have hle : (path.map Object.dict).length ≤ (pool store d).length := by
    refine (List.subperm_of_subset (hnodup.map hinj) fun o ho => ?_).length_le
    obtain ⟨e, he, rfl⟩ := List.mem_map.mp ho
    exact hpool e he
  rw [List.length_map, hlength, length_pool] at hle
  omega

/-- The kids of a node whose height is at most so many levels have an answer. -/
theorem HeightWithin.probeAt_ne_endless {height levels : Nat} (h : HeightWithin store height d)
    (hlevels : height ≤ levels) (reference : Option Ref) (i : Nat) :
    probeAt store (.ofDict store d reference) name levels i ≠ .endless := by
  unfold probeAt
  cases hkid : (NameNode.ofDict store d reference).kid? store i with
  | none => nofun
  | some kid =>
    obtain ⟨-, -, -, -, -, e, he, rfl⟩ := exists_isKid_of_kid? hkid
    cases height with
    | zero => exact absurd he (h e)
    | succ height =>
      exact (probe_sound name (h e he) (Nat.lt_succ_self height) (by omega)).ne_endless

/-- In a tree without circles the search of a range of kids recovers from an exhausted kid in the middle unless a
kid that answers that it lacks the name comes before all that have it. If one does, that is the outcome. -/
theorem recovers_iff {levels : Nat} (h : Acyclic store d)
    (hlevels : store.nodes + (Object.dict d).nodes ≤ levels) (reference : Option Ref) (name : String)
    (first last : Nat) :
    let probe := probeAt store (.ofDict store d reference) name levels
    (Recovers probe first last ↔
        (probe (middle first last) = .exhausted → ¬ MissesFirst probe first last)) ∧
      (probe (middle first last) = .exhausted → MissesFirst probe first last →
        ∀ fuel, searchKids probe (fuel + 1) first last = .miss) := by
  intro probe
  have hend (i : Nat) : probe i ≠ .endless := h.heightWithin.probeAt_ne_endless hlevels reference i
  refine ⟨⟨fun hrecovers hmiddle hmisses => ?_, fun hnot hmiddle hhit fuel => ?_⟩,
    fun hmiddle hmisses fuel => ?_⟩
  · rcases searchKids_cases_of_hit hmiddle hend hmisses.1 0 with ⟨-, hnot⟩ | ⟨hmiss, -⟩
    · exact hnot hmisses
    · obtain ⟨value, hvalue⟩ := hrecovers hmiddle hmisses.1 0
      rw [hmiss] at hvalue
      cases hvalue
  · rcases searchKids_cases_of_hit hmiddle hend hhit fuel with ⟨hfound, -⟩ | ⟨-, hmisses⟩
    · exact hfound
    · exact absurd hmisses (hnot hmiddle)
  · rcases searchKids_cases_of_hit hmiddle hend hmisses.1 fuel with ⟨-, hnot⟩ | ⟨hmiss, -⟩
    · exact absurd hmisses hnot
    · exact hmiss

/-- A leaf without limits that has one name. -/
def oneName (key : UInt8) : Dict :=
  ⟨[("Names", .array [.str ⟨.literal [key], none⟩, .bool true])]⟩

/-- A root with a leaf for the name `a`, a kid that is no dictionary, and a leaf for the name `b`. -/
def gapRoot : Dict := ⟨[("Kids", .array [.dict (oneName 97), .null, .dict (oneName 98)])]⟩

theorem acyclic_gapRoot : Acyclic ⟨[], none⟩ gapRoot := by
  have hheight : HeightWithin ⟨[], none⟩ 1 gapRoot := by
    rintro e ⟨kids, hkids, o, ho, he⟩ f ⟨kids', hkids', -⟩
    obtain rfl := Option.some.inj hkids
    fin_cases ho
    · obtain rfl := Option.some.inj he
      cases hkids'
    · cases he
    · obtain rfl := Option.some.inj he
      cases hkids'
  exact hheight.acyclic

theorem recovers_iff_gapRoot : Acyclic ⟨[], none⟩ gapRoot ∧
    (⟨[], none⟩ : Store).nodes + (Object.dict gapRoot).nodes ≤ 12 ∧
    Recovers (probeAt ⟨[], none⟩ (.ofDict ⟨[], none⟩ gapRoot none) "a" 12) 0 3 := by
  have hnodes : (⟨[], none⟩ : Store).nodes + (Object.dict gapRoot).nodes ≤ 12 := by decide
  refine ⟨acyclic_gapRoot, hnodes, (recovers_iff acyclic_gapRoot hnodes none "a" 0 3).1.mpr ?_⟩
  rintro - ⟨-, i, -, -, hbefore⟩
  have hother : IsOther 0 3 0 := ⟨Nat.le_refl 0, by decide, by decide⟩
  exact Nat.not_lt_zero i (hbefore 0 hother ⟨⟨.bool true, none⟩, rfl⟩)

/-- The leaf for `a` answers that it lacks the name `b`, so the leaf that has it is not tried. -/
theorem not_forall_recovers :
    ¬ ∀ (store : Store) (d : Dict) (reference : Option Ref) (name : String) (levels first last : Nat),
      Acyclic store d → store.nodes + (Object.dict d).nodes ≤ levels →
        Recovers (probeAt store (.ofDict store d reference) name levels) first last := by
  intro h
  have hother : IsOther 0 3 2 := ⟨by decide, by decide, by decide⟩
  obtain ⟨value, hvalue⟩ := h ⟨[], none⟩ gapRoot none "b" 12 0 3 acyclic_gapRoot (by decide) rfl
    ⟨2, hother, ⟨.bool true, none⟩, rfl⟩ 0
  cases hvalue

end NameTree

end Folio
