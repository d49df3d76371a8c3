import Folio.Proofs.NameTree.Trace

/-!
# Searching malformed name trees

The limits, the order of the keys and the shape of the arrays of a name tree may be wrong in any way.
Main statement: as long as its kids do not go round in a circle a search still ends, and what it
finds is an entry of the tree with exactly that name.

A search misled by wrong limits may miss an entry. It finds nothing wrong since each way to a value,
the halving of the names as well as the look at either end, compares the key with the name.
-/

namespace Folio.NameTree

/-- An outcome with an end that finds only what the entries have under the name. -/
inductive Sound (entries : List (String × NameValue)) (name : String) : Probe → Prop
  | hit {value : NameValue} : (name, value) ∈ entries → Sound entries name (.hit value)
  | miss : Sound entries name .miss
  | below : Sound entries name .below
  | above : Sound entries name .above
  | exhausted : Sound entries name .exhausted

variable {store : Store} {d : Dict} {reference : Option Ref} {entries more : List (String × NameValue)}
  {name : String}

theorem Sound.mono {outcome : Probe} (hsub : entries ⊆ more) (h : Sound entries name outcome) :
    Sound more name outcome := by
  cases h with
  | hit h => exact .hit (hsub h)
  | miss => exact .miss
  | below => exact .below
  | above => exact .above
  | exhausted => exact .exhausted

theorem Sound.ne_endless {outcome : Probe} (h : Sound entries name outcome) :
    outcome ≠ .endless := by
  cases h <;> nofun

/-! ## Leaves -/

/-- Halving names in any order finds a value only under the name itself. -/
theorem mem_of_searchPairs {pairs : List (String × Object)} {o : Object} {fuel first last : Nat}
    (h : searchPairs pairs.toArray name fuel first last = some o) : (name, o) ∈ pairs := by
  induction fuel generalizing first last with
  | zero => cases h
  | succ fuel ih =>
    rw [searchPairs] at h
    by_cases hempty : last ≤ first
    · rw [if_pos hempty] at h
      cases h
    rw [if_neg hempty] at h
    generalize (first + last - 1) / 2 = pivot at h
    cases hget : pairs.toArray[pivot]? with
    | none => simp [hget] at h
    | some pair =>
      obtain ⟨key, value⟩ := pair
      simp only [hget] at h
      cases hcmp : compare key name with
      | eq =>
        simp only [hcmp, Option.some.injEq] at h
        rw [← compare_eq_iff_eq.mp hcmp, ← h]
        rw [List.getElem?_toArray] at hget
        exact List.mem_of_getElem? hget
      | gt => exact ih (by simpa only [hcmp] using h)
      | lt => exact ih (by simpa only [hcmp] using h)

theorem probeLeaf_sound (store : Store) (n : NameNode) (name : String) :
    Sound (n.leafEntries store) name (n.probeLeaf store name) := by
  have hvalue {o : Object} (h : (name, o) ∈ n.pairsOf store) :
      Sound (n.leafEntries store) name (.hit (n.value store o)) :=
    .hit (List.mem_map.mpr ⟨_, h, rfl⟩)
  -- Either end is compared with the name before it is taken.
  have hend {limit : String} {pair : Option (String × Object)} {o : Object}
      (hmem : ∀ p ∈ pair, p ∈ n.pairsOf store)
      (h : (if limit = name then pair.bind fun p => if p.1 = name then some p.2 else none
        else none) = some o) : Sound (n.leafEntries store) name (.hit (n.value store o)) := by
    split at h
    · obtain ⟨p, hp, h⟩ := Option.bind_eq_some_iff.mp h
      split at h
      · rename_i hkey
        obtain rfl := Option.some.inj h
        exact hvalue (hkey ▸ hmem p hp)
      · cases h
    · cases h
  unfold NameNode.probeLeaf
  cases n.limits with
  | none =>
    dsimp only
    split
    · rename_i o ho
      exact hvalue (mem_of_searchPairs ho)
    · exact .miss
  | some limits =>
    dsimp only
    split
    · exact .below
    split
    · rename_i o ho
      exact hend (fun p hp => List.mem_of_mem_head? hp) ho
    split
    · exact .above
    split
    · rename_i o ho
      exact hend (fun p hp => List.mem_of_mem_getLast? hp) ho
    split
    · rename_i o ho
      exact hvalue (mem_of_searchPairs ho)
    · exact .miss

/-! ## Nodes with kids -/

/-- The kid of a node at an index is described by a dictionary of one of its kids. -/
theorem exists_isKid_of_kid? {i : Nat} {kid : NameNode}
    (h : (NameNode.ofDict store d reference).kid? store i = some kid) :
    ∃ kids, store.entry? Object.array? d "Kids" = some kids ∧
      ∃ o ∈ kids, NameNode.ofKid? store o = some kid ∧
        ∃ e, IsKid store d e ∧ kid = NameNode.ofDict store e o.ref? := by
  obtain ⟨o, ho, hkid⟩ := Option.bind_eq_some_iff.mp h
  cases hkids : store.entry? Object.array? d "Kids" with
  | none => simp [NameNode.ofDict, hkids] at ho
  | some kids =>
    simp only [NameNode.ofDict, hkids, Option.getD_some] at ho
    have hmem : o ∈ kids := List.mem_of_getElem? ho
    obtain ⟨e, he, rfl⟩ := Option.map_eq_some_iff.mp hkid
    exact ⟨kids, rfl, o, hmem, hkid, e, ⟨kids, hkids, o, hmem, he⟩, rfl⟩

/-- What lies below a kid lies below the node. -/
theorem entriesWithin_subset_of_kid? {i levels : Nat} {kid : NameNode}
    (h : (NameNode.ofDict store d reference).kid? store i = some kid) :
    kid.entriesWithin store levels ⊆
      (NameNode.ofDict store d reference).entriesWithin store (levels + 1) := by
  obtain ⟨kids, hkids, o, ho, hkid, -⟩ := exists_isKid_of_kid? h
  intro entry hentry
  simp only [NameNode.entriesWithin, NameNode.ofDict, hkids]
  exact List.mem_flatMap.mpr ⟨kid, List.mem_filterMap.mpr ⟨o, ho, hkid⟩, hentry⟩

/-- A node answers soundly if all its kids do. -/
theorem probe_sound_step {depth levels : Nat}
    (hkids : ∀ i kid, (NameNode.ofDict store d reference).kid? store i = some kid →
      Sound (kid.entriesWithin store depth) name (kid.probe store name levels)) :
    Sound ((NameNode.ofDict store d reference).entriesWithin store (depth + 1)) name
      ((NameNode.ofDict store d reference).probe store name (levels + 1)) := by
  rw [probe_succ]
  rcases Route.outcome_cases (probeAt store (.ofDict store d reference) name levels)
    (route store (.ofDict store d reference) name) with ⟨outcome, hroute⟩ | h | ⟨i, -, h⟩
  · rw [hroute]
    rcases answer_cases hroute with ⟨hleaf, rfl⟩ | rfl | rfl | rfl
    · simp only [NameNode.entriesWithin, hleaf]
      exact probeLeaf_sound store _ name
    · exact .miss
    · exact .below
    · exact .above
  · rw [h]
    exact .exhausted
  · rw [h, probeAt]
    cases hkid : (NameNode.ofDict store d reference).kid? store i with
    | none => exact .exhausted
    | some kid => exact (hkids i kid hkid).mono (entriesWithin_subset_of_kid? hkid)

/-- A node whose height is less than the levels of the list and of the search answers soundly, by
induction on the height. -/
theorem probe_sound (name : String) {height depth levels : Nat} (h : HeightWithin store height d)
    (hdepth : height < depth) (hlevels : height < levels) :
    Sound ((NameNode.ofDict store d reference).entriesWithin store depth) name
      ((NameNode.ofDict store d reference).probe store name levels) := by
  induction height generalizing d reference depth levels with
  | zero =>
    obtain ⟨depth, rfl⟩ := Nat.exists_eq_add_one_of_ne_zero (Nat.ne_zero_of_lt hdepth)
    obtain ⟨levels, rfl⟩ := Nat.exists_eq_add_one_of_ne_zero (Nat.ne_zero_of_lt hlevels)
    refine probe_sound_step fun i kid hkid => ?_
    obtain ⟨-, -, -, -, -, e, he, -⟩ := exists_isKid_of_kid? hkid
    exact absurd he (h e)
  | succ height ih =>
    obtain ⟨depth, rfl⟩ := Nat.exists_eq_add_one_of_ne_zero (Nat.ne_zero_of_lt hdepth)
    obtain ⟨levels, rfl⟩ := Nat.exists_eq_add_one_of_ne_zero (Nat.ne_zero_of_lt hlevels)
    refine probe_sound_step fun i kid hkid => ?_
    obtain ⟨-, -, -, -, -, e, he, rfl⟩ := exists_isKid_of_kid? hkid
    exact ih (h e he) (by omega) (by omega)

theorem Sound.valueOf?_mem {outcome : Probe} (h : Sound entries name outcome) {value : NameValue}
    (hvalue : valueOf? outcome = some value) : (name, value) ∈ entries := by
  cases h with
  | hit h =>
    obtain rfl := Option.some.inj hvalue
    exact h
  | miss | below | above | exhausted => cases hvalue

/-- Whatever else is wrong with a name tree of at most 64 levels, a search ends, and a value that it
finds is an entry of the tree under the name. -/
theorem search_sound (h : HeightWithin store maxDepth d) (name : String) :
    ∃ found, (ofRoot store d reference).search name = .ok found ∧
      ∀ value, found = some value → (name, value) ∈ (ofRoot store d reference).entries := by
  -- One height lies below both the depth of the list and the bound of the search.
  obtain ⟨height, hdepth, hbound, hheight⟩ : ∃ height ≤ maxDepth,
      height < (ofRoot store d reference).bound ∧ HeightWithin store height d := by
    obtain ⟨height, hlt, hheight⟩ := h.exists_lt_nodes
    rcases le_total height maxDepth with hle | hle
    · exact ⟨height, hle, Nat.lt_succ_of_lt hlt, hheight⟩
    · exact ⟨maxDepth, Nat.le_refl _, Nat.lt_succ_of_lt (hle.trans_lt hlt), h⟩
  have hsound : Sound (ofRoot store d reference).entries name
      ((ofRoot store d reference).root.probe store name (ofRoot store d reference).bound) :=
    probe_sound name hheight (Nat.lt_succ_of_le hdepth) hbound
  refine ⟨_, search_eq_valueOf? hsound.ne_endless, ?_⟩
  intro value hvalue
  exact hsound.valueOf?_mem hvalue

/-- A leaf with its limits the wrong way round. -/
def crossedLeaf : Dict :=
  ⟨[("Limits", .array [.str ⟨.literal [122], none⟩, .str ⟨.literal [97], none⟩]),
    ("Names", .array [.str ⟨.literal [98], none⟩, .bool false])]⟩

/-- A leaf without limits, whose keys `b` and `a` decrease. The first of them cannot be decrypted, and
the last key has no value. -/
def unorderedLeaf : Dict :=
  ⟨[("Names", .array [.str ⟨.literal [98], some ⟨2, 0⟩⟩, .bool true, .str ⟨.literal [97], none⟩,
      .null, .str ⟨.literal [99], none⟩])]⟩

/-- A root whose middle kid is no dictionary. -/
def brokenRoot : Dict := ⟨[("Kids", .array [.dict crossedLeaf, .null, .dict unorderedLeaf])]⟩

/-- A document in which no string can be decrypted. -/
def sealedStore : Store where
  objects := []
  security := some ⟨some { key := [], decrypt? := fun _ _ _ => none }⟩

theorem search_sound_brokenRoot :
    HeightWithin sealedStore maxDepth brokenRoot ∧
      (ofRoot sealedStore brokenRoot none).search "b" = .ok (some ⟨.bool true, none⟩) ∧
      ("b", ⟨.bool true, none⟩) ∈ (ofRoot sealedStore brokenRoot none).entries := by
  have hheight : HeightWithin sealedStore maxDepth brokenRoot := by
    have hroot : HeightWithin sealedStore 1 brokenRoot := by
      rintro e ⟨kids, hkids, o, ho, he⟩ f ⟨kids', hkids', -⟩
      obtain rfl := Option.some.inj hkids
      fin_cases ho
      · obtain rfl := Option.some.inj he
        cases hkids'
      · cases he
      · obtain rfl := Option.some.inj he
        cases hkids'
    exact hroot.mono (by decide)
  obtain ⟨found, hfound, hmem⟩ :
      ∃ found, (ofRoot sealedStore brokenRoot none).search "b" = .ok found ∧
        ∀ value, found = some value →
          ("b", value) ∈ (ofRoot sealedStore brokenRoot none).entries := search_sound hheight "b"
  have hvalue : (ofRoot sealedStore brokenRoot none).search "b" =
      .ok (some ⟨.bool true, none⟩) := rfl
  rw [hvalue] at hfound
  exact ⟨hheight, hvalue, hmem _ (Except.ok.inj hfound).symm⟩

end Folio.NameTree
