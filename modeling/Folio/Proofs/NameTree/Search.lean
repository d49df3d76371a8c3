import Folio.Proofs.NameTree.WellFormed

/-!
# Searching well-formed name trees

Each halving of a range of names or kids keeps all keys before the range below the name and all keys
behind it above. Main statement: in a well-formed tree a search finds what the list of entries has
under the name, and nothing if the list has no such key.

A name in the gap between two kids leaves the search of their node exhausted although the tree is
well formed. Its siblings are then tried in vain: they all lie below or above the name.
-/

namespace Folio.NameTree

/-- An outcome that settles whether the entries have a name. -/
inductive Settles (entries : List (String × NameValue)) (name : String) : Probe → Prop
  | hit {value : NameValue} : (name, value) ∈ entries → Settles entries name (.hit value)
  | miss : name ∉ keys entries → Settles entries name .miss
  | exhausted : name ∉ keys entries → Settles entries name .exhausted

/-- The outcome of a node with exact limits: a name outside of them is reported as such, and all
others are settled. -/
inductive Answers (entries : List (String × NameValue)) (name : String) : Probe → Prop
  | below : (∀ key ∈ keys entries, name < key) → Answers entries name .below
  | above : (∀ key ∈ keys entries, key < name) → Answers entries name .above
  | inside {outcome : Probe} {first last : String} :
      first ∈ keys entries → last ∈ keys entries → first ≤ name → name ≤ last →
      Settles entries name outcome → Answers entries name outcome

variable {store : Store} {d : Dict} {reference : Option Ref} {entries : List (String × NameValue)}
  {name : String}

/-! ## Names of a leaf -/

theorem searchPairs_spec (name : String) {pairs : List (String × Object)}
    (hsorted : Increasing pairs) :
    ∀ {fuel first last : Nat}, last ≤ pairs.length → last - first < fuel →
      (∀ i (h : i < pairs.length), i < first → pairs[i].1 < name) →
      (∀ i (h : i < pairs.length), last ≤ i → name < pairs[i].1) →
      match searchPairs pairs.toArray name fuel first last with
      | some o => (name, o) ∈ pairs
      | none => name ∉ keys pairs := by
  intro fuel
  induction fuel with
  | zero => intro first last _ hfuel; omega
  | succ fuel ih =>
    intro first last hlast hfuel hbefore hbehind
    rw [searchPairs]
    by_cases hempty : last ≤ first
    · rw [if_pos hempty]
      rintro hname
      obtain ⟨value, hmem⟩ := mem_keys.mp hname
      obtain ⟨i, hi, heq⟩ := List.getElem_of_mem hmem
      have hkey : pairs[i].1 = name := by rw [heq]
      rcases Nat.lt_or_ge i first with h | h
      · exact absurd hkey (hbefore i hi h).ne
      · exact absurd hkey (hbehind i hi (by omega)).ne'
    · rw [if_neg hempty]
      generalize hpivot : (first + last - 1) / 2 = pivot
      have hp : pivot < pairs.length := by omega
      have hmono : ∀ i (h : i < pairs.length), (i < pivot → pairs[i].1 < pairs[pivot].1) ∧
          (pivot < i → pairs[pivot].1 < pairs[i].1) := fun i h =>
        ⟨fun hlt => List.pairwise_iff_getElem.mp hsorted i pivot h hp hlt,
          fun hlt => List.pairwise_iff_getElem.mp hsorted pivot i hp h hlt⟩
      have hget : pairs.toArray[pivot]? = some pairs[pivot] := by
        rw [List.getElem?_toArray, List.getElem?_eq_getElem hp]
      simp only [hget]
      cases hcmp : compare pairs[pivot].1 name with
      | eq =>
        dsimp only
        rw [← compare_eq_iff_eq.mp hcmp]
        exact List.getElem_mem hp
      | gt =>
        have hgt : name < pairs[pivot].1 := compare_gt_iff_gt.mp hcmp
        refine ih hp.le (by omega) hbefore fun i h hle => ?_
        rcases Nat.eq_or_lt_of_le hle with rfl | hlt
        · exact hgt
        · exact hgt.trans ((hmono i h).2 hlt)
      | lt =>
        have hlt : pairs[pivot].1 < name := compare_lt_iff_lt.mp hcmp
        refine ih hlast (by omega) (fun i h hle => ?_) hbehind
        rcases Nat.eq_or_lt_of_le (Nat.le_of_lt_succ hle) with rfl | hi
        · exact hlt
        · exact ((hmono i h).1 hi).trans hlt

/-- What the search of a whole leaf comes to, without regard to its limits. -/
theorem searchPairs_settles (name : String) {pairs : List (String × Object)}
    (hsorted : Increasing pairs) (value : Object → NameValue) :
    Settles (pairs.map fun (key, o) => (key, value o)) name
      (match searchPairs pairs.toArray name (pairs.length + 1) 0 pairs.length with
        | some o => .hit (value o)
        | none => .miss) := by
  have hspec := searchPairs_spec name hsorted (Nat.le_refl pairs.length)
    (by omega : pairs.length - 0 < pairs.length + 1) (fun i _ h => absurd h (Nat.not_lt_zero i))
    (fun i h hle => by omega)
  cases hfound : searchPairs pairs.toArray name (pairs.length + 1) 0 pairs.length with
  | some o =>
    rw [hfound] at hspec
    exact .hit (List.mem_map.mpr ⟨_, hspec, rfl⟩)
  | none =>
    rw [hfound] at hspec
    refine .miss fun hname => hspec ?_
    simpa [keys] using hname

theorem probeLeaf_settles {pairs : List (String × Object)} {n : NameNode}
    (hpairs : n.pairsOf store = pairs) (hsorted : Increasing pairs) (hlimits : n.limits = none) :
    Settles (pairs.map fun (key, o) => (key, n.value store o)) name
      (n.probeLeaf store name) := by
  simp only [NameNode.probeLeaf, hpairs, hlimits]
  exact searchPairs_settles name hsorted _

/-- A name that equals a limit is found at that end, and the search of the whole leaf settles the
names between the limits. -/
theorem probeLeaf_answers {pairs : List (String × Object)} {n : NameNode} {first last : String}
    (hpairs : n.pairsOf store = pairs) (hsorted : Increasing pairs)
    (hlimits : n.limits = some (first, last))
    (hfirst : IsLeast (keys pairs) first) (hlast : IsGreatest (keys pairs) last) :
    Answers (pairs.map fun (key, o) => (key, n.value store o)) name
      (n.probeLeaf store name) := by
  have hkeys : keys (pairs.map fun (key, o) => (key, n.value store o)) = keys pairs := by
    ext key
    simp [keys]
  have hsettles := searchPairs_settles name hsorted (n.value store)
  have hinside (hlower : first ≤ name) (hupper : name ≤ last) {outcome : Probe}
      (h : Settles (pairs.map fun (key, o) => (key, n.value store o)) name outcome) :
      Answers (pairs.map fun (key, o) => (key, n.value store o)) name outcome :=
    .inside (hkeys ▸ hfirst.1) (hkeys ▸ hlast.1) hlower hupper h
  -- An end of the names is only taken for the name itself.
  have hend {pair : Option (String × Object)} {o : Object} (hmem : ∀ p ∈ pair, p ∈ pairs)
      (h : (pair.bind fun (key, o) => if key = name then some o else none) = some o) :
      Settles (pairs.map fun (key, o) => (key, n.value store o)) name
        (.hit (n.value store o)) := by
    obtain ⟨⟨key, p⟩, hp, h⟩ := Option.bind_eq_some_iff.mp h
    dsimp only at h
    split at h
    · rename_i hkey
      obtain rfl := Option.some.inj h
      exact .hit (List.mem_map.mpr ⟨_, hkey ▸ hmem _ hp, rfl⟩)
    · cases h
  simp only [NameNode.probeLeaf, hpairs, hlimits]
  by_cases hbelow : name < first
  · rw [if_pos hbelow]
    exact .below fun key hkey => hbelow.trans_le (hfirst.2 (hkeys ▸ hkey))
  rw [if_neg hbelow]
  have hlower : first ≤ name := not_lt.mp hbelow
  split
  · rename_i o ho
    split at ho
    · rename_i heq
      exact hinside hlower (heq ▸ hfirst.2 hlast.1)
        (hend (fun p hp => List.mem_of_mem_head? hp) ho)
    · cases ho
  by_cases habove : last < name
  · rw [if_pos habove]
    exact .above fun key hkey => (hlast.2 (hkeys ▸ hkey)).trans_lt habove
  rw [if_neg habove]
  have hupper : name ≤ last := not_lt.mp habove
  split
  · rename_i o ho
    split at ho
    · exact hinside hlower hupper (hend (fun p hp => List.mem_of_mem_getLast? hp) ho)
    · cases ho
  · exact hinside hlower hupper hsettles

/-! ## Kids of a node -/

/-- Trying nodes that all lie below or above the name leads nowhere. -/
theorem scanKids_exhausted {probe : Nat → Probe} {indices : List Nat}
    (h : ∀ i ∈ indices, (probe i).isFinal = false) : scanKids probe indices = .exhausted := by
  induction indices with
  | nil => rfl
  | cons i rest ih =>
    simp only [scanKids, h i List.mem_cons_self, Bool.false_eq_true, if_false]
    exact ih fun j hj => h j (List.mem_cons_of_mem _ hj)

/-- A name within the range of one kid is below or above all others. -/
theorem Answers.isFinal_eq_false {outcome : Probe} (h : Answers entries name outcome)
    (hoff : (∀ key ∈ keys entries, key < name) ∨ ∀ key ∈ keys entries, name < key) :
    outcome.isFinal = false := by
  cases h with
  | below _ => rfl
  | above _ => rfl
  | inside hfirst hlast hlower hupper _ =>
    rcases hoff with hoff | hoff
    · exact absurd (hoff _ hlast) (not_lt.mpr hupper)
    · exact absurd (hoff _ hfirst) (not_lt.mpr hlower)

section Kids

variable {kids : List Kid}
  (hdisjoint : kids.Pairwise fun k l => ∀ p ∈ k.entries, ∀ q ∈ l.entries, p.1 < q.1)
include hdisjoint

theorem lt_of_kids_lt {i j : Nat} (hi : i < kids.length) (hj : j < kids.length) (hij : i < j)
    {key key' : String} (hkey : key ∈ keys kids[i].entries) (hkey' : key' ∈ keys kids[j].entries) :
    key < key' := by
  obtain ⟨value, hmem⟩ := mem_keys.mp hkey
  obtain ⟨value', hmem'⟩ := mem_keys.mp hkey'
  exact List.pairwise_iff_getElem.mp hdisjoint i j hi hj hij _ hmem _ hmem'

/-- If the name lies in the range of one kid, another kid lies below or above it. -/
theorem off_of_ne {i pivot : Nat} (hi : i < kids.length) (hpivot : pivot < kids.length)
    (hne : i ≠ pivot) {first last : String} (hfirst : first ∈ keys kids[pivot].entries)
    (hlast : last ∈ keys kids[pivot].entries) (hlower : first ≤ name) (hupper : name ≤ last) :
    (∀ key ∈ keys kids[i].entries, key < name) ∨ ∀ key ∈ keys kids[i].entries, name < key := by
  rcases Nat.lt_or_gt_of_ne hne with h | h
  · exact .inl fun key hkey => (lt_of_kids_lt hdisjoint hi hpivot h hkey hfirst).trans_le hlower
  · exact .inr fun key hkey => hupper.trans_lt (lt_of_kids_lt hdisjoint hpivot hi h hlast hkey)

theorem not_mem_of_inside {pivot : Nat} (hpivot : pivot < kids.length) {first last : String}
    (hfirst : first ∈ keys kids[pivot].entries) (hlast : last ∈ keys kids[pivot].entries)
    (hlower : first ≤ name) (hupper : name ≤ last) (h : name ∉ keys kids[pivot].entries) :
    name ∉ keys (kids.flatMap Kid.entries) := by
  intro hname
  obtain ⟨k, hk, hkey⟩ := mem_keys_flatMap.mp hname
  obtain ⟨i, hi, rfl⟩ := List.getElem_of_mem hk
  by_cases hne : i = pivot
  · subst hne
    exact h hkey
  · rcases off_of_ne hdisjoint hi hpivot hne hfirst hlast hlower hupper with hoff | hoff
    · exact lt_irrefl _ (hoff name hkey)
    · exact lt_irrefl _ (hoff name hkey)

/-- Halving the kids: those before the range lie below the name and those behind it above. -/
theorem searchKids_settles (hne : ∀ k ∈ kids, (keys k.entries).Nonempty) {probe : Nat → Probe}
    (hprobe : ∀ i (h : i < kids.length), Answers kids[i].entries name (probe i)) :
    ∀ {fuel first last : Nat}, last ≤ kids.length → last - first < fuel →
      (∀ i (h : i < kids.length), i < first → ∀ key ∈ keys kids[i].entries, key < name) →
      (∀ i (h : i < kids.length), last ≤ i → ∀ key ∈ keys kids[i].entries, name < key) →
      Settles (kids.flatMap Kid.entries) name (searchKids probe fuel first last) := by
  intro fuel
  induction fuel with
  | zero => intro first last _ hfuel; omega
  | succ fuel ih =>
    intro first last hlast hfuel hbefore hbehind
    rw [searchKids]
    by_cases hempty : last ≤ first
    · rw [if_pos hempty]
      refine .exhausted fun hname => ?_
      obtain ⟨k, hk, hkey⟩ := mem_keys_flatMap.mp hname
      obtain ⟨i, hi, rfl⟩ := List.getElem_of_mem hk
      rcases Nat.lt_or_ge i first with h | h
      · exact lt_irrefl _ (hbefore i hi h name hkey)
      · exact lt_irrefl _ (hbehind i hi (by omega) name hkey)
    rw [if_neg hempty]
    generalize hpivot : first + (last - 1 - first) / 2 = pivot
    have hp : pivot < kids.length := by omega
    have hanswer := hprobe pivot hp
    dsimp only
    cases houtcome : probe pivot with
    | below =>
      rw [houtcome] at hanswer
      have hbelow : ∀ key ∈ keys kids[pivot].entries, name < key := by
        cases hanswer with
        | below h => exact h
        | inside _ _ _ _ h => cases h
      refine ih hp.le (by omega) hbefore fun i hi hle key hkey => ?_
      rcases Nat.eq_or_lt_of_le hle with rfl | hlt
      · exact hbelow key hkey
      · obtain ⟨least, hleast⟩ := hne _ (List.getElem_mem hp)
        exact (hbelow least hleast).trans (lt_of_kids_lt hdisjoint hp hi hlt hleast hkey)
    | above =>
      rw [houtcome] at hanswer
      have habove : ∀ key ∈ keys kids[pivot].entries, key < name := by
        cases hanswer with
        | above h => exact h
        | inside _ _ _ _ h => cases h
      refine ih hlast (by omega) (fun i hi hle key hkey => ?_) hbehind
      rcases Nat.eq_or_lt_of_le (Nat.le_of_lt_succ hle) with rfl | hlt
      · exact habove key hkey
      · obtain ⟨least, hleast⟩ := hne _ (List.getElem_mem hp)
        exact (lt_of_kids_lt hdisjoint hi hp hlt hkey hleast).trans (habove least hleast)
    | hit value =>
      rw [houtcome] at hanswer
      cases hanswer with
      | inside _ _ _ _ h =>
        cases h with
        | hit h => exact .hit (List.mem_flatMap.mpr ⟨_, List.getElem_mem hp, h⟩)
    | miss =>
      rw [houtcome] at hanswer
      cases hanswer with
      | inside hfirst hlast hlower hupper h =>
        cases h with
        | miss h => exact .miss (not_mem_of_inside hdisjoint hp hfirst hlast hlower hupper h)
    | exhausted =>
      rw [houtcome] at hanswer
      cases hanswer with
      | inside hfirst hlast' hlower hupper h =>
        cases h with
        | exhausted h =>
          dsimp only
          rw [scanKids_exhausted fun i hi => ?_]
          · exact .exhausted (not_mem_of_inside hdisjoint hp hfirst hlast' hlower hupper h)
          · simp only [List.mem_filter, List.mem_map, List.mem_range, decide_eq_true_eq] at hi
            obtain ⟨⟨offset, hoffset, rfl⟩, hipivot⟩ := hi
            have hi : first + offset < kids.length := by omega
            exact (hprobe _ hi).isFinal_eq_false
              (off_of_ne hdisjoint hi hp hipivot hfirst hlast' hlower hupper)
    | endless =>
      rw [houtcome] at hanswer
      cases hanswer with
      | inside _ _ _ _ h => cases h

end Kids

/-! ## Nodes -/

theorem Settles.hit_of_mem {outcome : Probe} (h : Settles entries name outcome)
    (hname : name ∈ keys entries) : ∃ value, outcome = .hit value ∧ (name, value) ∈ entries := by
  cases h with
  | hit h => exact ⟨_, rfl, h⟩
  | miss h => exact absurd hname h
  | exhausted h => exact absurd hname h

theorem Answers.hit_of_mem {outcome : Probe} (h : Answers entries name outcome)
    (hname : name ∈ keys entries) : ∃ value, outcome = .hit value ∧ (name, value) ∈ entries := by
  cases h with
  | below h => exact absurd (h name hname) (lt_irrefl _)
  | above h => exact absurd (h name hname) (lt_irrefl _)
  | inside _ _ _ _ h => exact h.hit_of_mem hname

/-- An answer about one kid that has the name settles it for the whole node. -/
theorem Answers.settles_of_kid {kids : List Kid} {i : Nat} (hi : i < kids.length)
    {outcome : Probe} (h : Answers kids[i].entries name outcome)
    (hname : name ∈ keys kids[i].entries) : Settles (kids.flatMap Kid.entries) name outcome := by
  obtain ⟨value, rfl, hmem⟩ := h.hit_of_mem hname
  exact .hit (List.mem_flatMap.mpr ⟨_, List.getElem_mem hi, hmem⟩)

/-- The smallest key of a node is one of its first kid. -/
theorem mem_keys_first {kids : List Kid}
    (hdisjoint : kids.Pairwise fun k l => ∀ p ∈ k.entries, ∀ q ∈ l.entries, p.1 < q.1)
    (hne : ∀ k ∈ kids, (keys k.entries).Nonempty) (hpos : 0 < kids.length) {key : String}
    (h : IsLeast (keys (kids.flatMap Kid.entries)) key) : key ∈ keys kids[0].entries := by
  obtain ⟨k, hk, hkey⟩ := mem_keys_flatMap.mp h.1
  obtain ⟨i, hi, rfl⟩ := List.getElem_of_mem hk
  rcases Nat.eq_zero_or_pos i with rfl | hipos
  · exact hkey
  · obtain ⟨other, hother⟩ := hne _ (List.getElem_mem hpos)
    have hlt := lt_of_kids_lt hdisjoint hpos hi hipos hother hkey
    exact absurd (h.2 (mem_keys_flatMap.mpr ⟨_, List.getElem_mem hpos, hother⟩)) (not_le.mpr hlt)

/-- The largest key of a node is one of its last kid. -/
theorem mem_keys_last {kids : List Kid}
    (hdisjoint : kids.Pairwise fun k l => ∀ p ∈ k.entries, ∀ q ∈ l.entries, p.1 < q.1)
    (hne : ∀ k ∈ kids, (keys k.entries).Nonempty) (hend : kids.length - 1 < kids.length)
    {key : String} (h : IsGreatest (keys (kids.flatMap Kid.entries)) key) :
    key ∈ keys kids[kids.length - 1].entries := by
  obtain ⟨k, hk, hkey⟩ := mem_keys_flatMap.mp h.1
  obtain ⟨i, hi, rfl⟩ := List.getElem_of_mem hk
  rcases Nat.eq_or_lt_of_le (Nat.le_sub_one_of_lt hi) with rfl | hlt
  · exact hkey
  · obtain ⟨other, hother⟩ := hne _ (List.getElem_mem hend)
    have hlt := lt_of_kids_lt hdisjoint hi hend hlt hkey hother
    exact absurd (h.2 (mem_keys_flatMap.mpr ⟨_, List.getElem_mem hend, hother⟩)) (not_le.mpr hlt)

theorem Bounds.nonempty (h : Bounds store d entries) : (keys entries).Nonempty := by
  obtain ⟨_, _, first, _, _, _, _, hfirst, _⟩ := h
  exact ⟨first, hfirst.1⟩

/-- The kid that a node has at an index. -/
theorem kid?_eq {kids : List Kid}
    (hkids : store.entry? Object.array? d "Kids" = some (kids.map Kid.object))
    (hdict : ∀ k ∈ kids, store.resolveAs? Object.dict? k.object = some k.dict)
    {i : Nat} (hi : i < kids.length) :
    (NameNode.ofDict store d reference).kid? store i =
      some (NameNode.ofDict store kids[i].dict kids[i].object.ref?) := by
  simp only [NameNode.kid?, NameNode.ofDict, hkids, Option.getD_some, List.getElem?_map,
    List.getElem?_eq_getElem hi, Option.map_some, Option.bind_some, NameNode.ofKid?,
    hdict _ (List.getElem_mem hi)]

/-- What the kid of a node at an index comes to. -/
def probeAt (store : Store) (n : NameNode) (name : String) (levels i : Nat) : Probe :=
  match n.kid? store i with
  | some kid => kid.probe store name levels
  | none => .exhausted

/-- What a node of a well-formed tree comes to, by induction on the tree. A node without limits
settles every name, and one with exact limits answers as they say. -/
theorem IsNode.probe_spec (name : String) {height : Nat}
    (h : IsNode store height d reference entries) :
    ∀ {m levels : Nat}, HeightWithin store m d → m < levels →
      (NameNode.limitsOf store d = none →
        Settles entries name ((NameNode.ofDict store d reference).probe store name levels)) ∧
      (Bounds store d entries →
        Answers entries name ((NameNode.ofDict store d reference).probe store name levels)) := by
  induction h with
  | @leaf height d reference names pairs hkids hnames hlists hsorted =>
    intro m levels _ hlevels
    obtain ⟨levels, rfl⟩ := Nat.exists_eq_add_one_of_ne_zero (Nat.ne_zero_of_lt hlevels)
    have hpairs : (NameNode.ofDict store d reference).pairsOf store = pairs := by
      simp only [NameNode.pairsOf, NameNode.ofDict, hkids, hnames, Option.isSome_none,
        Bool.false_eq_true, if_false, Option.getD_some, hlists.pairs_eq]
    have hprobe : (NameNode.ofDict store d reference).probe store name (levels + 1) =
        (NameNode.ofDict store d reference).probeLeaf store name := by
      rw [NameNode.probe]
      simp only [NameNode.ofDict, hkids, hnames, Option.isSome_none, Bool.false_eq_true, if_false,
        Option.isSome_some, if_true]
    rw [hprobe]
    refine ⟨fun hlimits => probeLeaf_settles hpairs hsorted hlimits, fun hbounds => ?_⟩
    obtain ⟨first, last, hlimits, hfirst, hlast⟩ := hbounds.limitsOf_eq
    have hkeys : keys (pairs.map fun (key, o) =>
        (key, (NameNode.ofDict store d reference).value store o)) = keys pairs := by
      ext key
      simp [keys]
    rw [hkeys] at hfirst hlast
    exact probeLeaf_answers hpairs hsorted hlimits hfirst hlast
  | @branch height d reference kids hkids hne hdict _ hbounds hdisjoint ih =>
    intro m levels hm hlevels
    obtain ⟨levels, rfl⟩ := Nat.exists_eq_add_one_of_ne_zero (Nat.ne_zero_of_lt hlevels)
    have hpos : 0 < kids.length := List.length_pos_iff.mpr hne
    have hend : kids.length - 1 < kids.length := by omega
    have hkid : ∀ k ∈ kids, IsKid store d k.dict := fun k hk =>
      ⟨_, hkids, k.object, List.mem_map_of_mem hk, hdict k hk⟩
    have hnonempty : ∀ k ∈ kids, (keys k.entries).Nonempty := fun k hk => (hbounds k hk).nonempty
    -- The kids' heights are below the node's, so the levels suffice for them.
    let probeKid : Nat → Probe := probeAt store (.ofDict store d reference) name levels
    have hprobe : ∀ i (hi : i < kids.length), Answers kids[i].entries name (probeKid i) := by
      intro i hi
      cases m with
      | zero => exact absurd (hkid _ (List.getElem_mem hi)) (hm _)
      | succ m =>
        simp only [probeKid, probeAt, kid?_eq hkids hdict hi]
        exact (ih _ (List.getElem_mem hi) (hm _ (hkid _ (List.getElem_mem hi))) (by omega)).2
          (hbounds _ (List.getElem_mem hi))
    have hsearch : Settles (kids.flatMap Kid.entries) name
        (searchKids probeKid (kids.length + 1) 0 kids.length) :=
      searchKids_settles hdisjoint hnonempty hprobe (Nat.le_refl _) (by omega)
        (fun i _ h => absurd h (Nat.not_lt_zero i)) (fun i h hle => by omega)
    have hcount : (NameNode.ofDict store d reference).kidCount = kids.length := by
      simp only [NameNode.kidCount, NameNode.ofDict, hkids, Option.getD_some, List.length_map]
    have hisSome : (NameNode.ofDict store d reference).kids.isSome = true := by
      simp only [NameNode.ofDict, hkids, Option.isSome_some]
    have hlimitsOf : (NameNode.ofDict store d reference).limits = NameNode.limitsOf store d := rfl
    rw [NameNode.probe]
    simp only [hisSome, if_true, hcount, hlimitsOf]
    constructor
    · intro hlimits
      simp only [hlimits]
      exact hsearch
    · intro hbounds
      obtain ⟨first, last, hlimits, hfirst, hlast⟩ := hbounds.limitsOf_eq
      simp only [hlimits]
      by_cases hbelow : name < first
      · rw [if_pos hbelow]
        exact .below fun key hkey => hbelow.trans_le (hfirst.2 hkey)
      rw [if_neg hbelow]
      have hlower : first ≤ name := not_lt.mp hbelow
      by_cases hfirstEq : first = name
      · rw [if_pos hfirstEq]
        subst hfirstEq
        exact .inside hfirst.1 hlast.1 hlower (hlast.2 hfirst.1)
          ((hprobe 0 hpos).settles_of_kid hpos (mem_keys_first hdisjoint hnonempty hpos hfirst))
      rw [if_neg hfirstEq]
      by_cases habove : last < name
      · rw [if_pos habove]
        exact .above fun key hkey => (hlast.2 hkey).trans_lt habove
      rw [if_neg habove]
      have hupper : name ≤ last := not_lt.mp habove
      by_cases hlastEq : last = name
      · rw [if_pos hlastEq]
        subst hlastEq
        exact .inside hfirst.1 hlast.1 hlower hupper
          ((hprobe _ hend).settles_of_kid hend (mem_keys_last hdisjoint hnonempty hend hlast))
      rw [if_neg hlastEq]
      exact .inside hfirst.1 hlast.1 hlower hupper hsearch

/-- The value that entries with increasing keys have under a name. -/
theorem lookup_eq_some {value : NameValue} (hsorted : Increasing entries)
    (h : (name, value) ∈ entries) : entries.lookup name = some value := by
  induction entries with
  | nil => cases h
  | cons e rest ih =>
    obtain ⟨key, v⟩ := e
    obtain ⟨hbehind, hrest⟩ := List.pairwise_cons.mp hsorted
    rcases List.mem_cons.mp h with heq | hmem
    · obtain ⟨rfl, rfl⟩ := Prod.mk.inj heq
      exact List.lookup_cons_self
    · have hne : (name == key) = false := beq_eq_false_iff_ne.mpr (hbehind _ hmem).ne'
      rw [List.lookup_cons, hne]
      exact ih hrest hmem

theorem lookup_eq_none (h : name ∉ keys entries) : entries.lookup name = none := by
  rw [List.lookup_eq_none_iff]
  intro p hp
  have hne : name ≠ p.1 := fun heq => h (heq ▸ mem_keys_of_mem hp)
  simpa using hne

/-- The value that a search with this outcome finds. -/
def valueOf? : Probe → Option NameValue
  | .hit value => some value
  | _ => none

theorem search_eq_valueOf? {t : NameTree} (h : t.root.probe t.store name t.bound ≠ .endless) :
    t.search name = .ok (valueOf? (t.root.probe t.store name t.bound)) := by
  unfold search
  cases houtcome : t.root.probe t.store name t.bound with
  | endless => exact absurd houtcome h
  | hit value => rfl
  | miss | below | above | exhausted => rfl

theorem Settles.valueOf?_eq {outcome : Probe} (hsorted : Increasing entries)
    (h : Settles entries name outcome) :
    outcome ≠ .endless ∧ valueOf? outcome = entries.lookup name := by
  cases h with
  | hit h => exact ⟨nofun, (lookup_eq_some hsorted h).symm⟩
  | miss h => exact ⟨nofun, (lookup_eq_none h).symm⟩
  | exhausted h => exact ⟨nofun, (lookup_eq_none h).symm⟩

theorem Answers.valueOf?_eq {outcome : Probe} (hsorted : Increasing entries)
    (h : Answers entries name outcome) :
    outcome ≠ .endless ∧ valueOf? outcome = entries.lookup name := by
  cases h with
  | below h => exact ⟨nofun, (lookup_eq_none fun hname => lt_irrefl _ (h name hname)).symm⟩
  | above h => exact ⟨nofun, (lookup_eq_none fun hname => lt_irrefl _ (h name hname)).symm⟩
  | inside _ _ _ _ h => exact h.valueOf?_eq hsorted

/-- In a well-formed name tree the list of entries holds those of all leaves in increasing order of
their keys, and a search finds what the list has under a name, or nothing. -/
theorem search_eq_lookup (h : WellFormed store d reference entries) :
    (ofRoot store d reference).entries = entries ∧
      Increasing (ofRoot store d reference).entries ∧
      ∀ name, (ofRoot store d reference).search name =
        .ok ((ofRoot store d reference).entries.lookup name) := by
  rw [h.entries_eq]
  refine ⟨rfl, h.isNode.increasing, fun name => ?_⟩
  obtain ⟨m, hm, hheight⟩ := h.isNode.heightWithin.exists_lt_nodes
  obtain ⟨hfree, hbounded⟩ := h.isNode.probe_spec name hheight
    (Nat.lt_succ_of_lt hm : m < (ofRoot store d reference).bound)
  have hvalue : (ofRoot store d reference).root.probe store name
      (ofRoot store d reference).bound ≠ .endless ∧
      valueOf? ((ofRoot store d reference).root.probe store name
        (ofRoot store d reference).bound) = entries.lookup name := by
    rcases h.limits with hlimits | hbounds
    · exact (hfree (limitsOf_eq_none hlimits)).valueOf?_eq h.isNode.increasing
    · exact (hbounded hbounds).valueOf?_eq h.isNode.increasing
  rw [← hvalue.2]
  exact search_eq_valueOf? hvalue.1

/-- The leaf of a document in which all bits of the strings in objects are flipped. Its keys are
`61` and `7A`, stored as hexadecimal digits. -/
def flippedLeaf : Dict :=
  ⟨[("Limits", .array [lower, upper]), ("Names", .array [lower, .ref ⟨9, 0⟩, upper, .null])]⟩
where
  lower : Object := .str ⟨.hex [57, 69], some ⟨2, 0⟩⟩
  upper : Object := .str ⟨.hex [56, 53], some ⟨2, 0⟩⟩

/-- The document with this leaf. -/
def flippedStore : Store where
  objects := [(⟨2, 0⟩, .dict flippedLeaf)]
  security := some ⟨some { key := [], decrypt? := fun _ _ data => some (data.map (~~~ ·)) }⟩

/-- A leaf with the literal key `A`. -/
def literalLeaf : Dict := ⟨[("Limits", .array [key, key]), ("Names", .array [key, .bool true])]⟩
where
  key : Object := .str ⟨.literal [65], none⟩

/-- A root without limits that holds one leaf directly and the other by reference. -/
def mixedRoot : Dict := ⟨[("Kids", .array [.dict literalLeaf, .ref ⟨2, 0⟩])]⟩

/-- The kids of that root. -/
def mixedKids : List Kid :=
  [⟨.dict literalLeaf, literalLeaf, [("A", ⟨.bool true, none⟩)]⟩,
    ⟨.ref ⟨2, 0⟩, flippedLeaf, [("a", ⟨.null, some ⟨9, 0⟩⟩), ("z", ⟨.null, none⟩)]⟩]

theorem wellFormed_mixedRoot :
    WellFormed flippedStore mixedRoot none (mixedKids.flatMap Kid.entries) := by
  have hA : Spells flippedStore literalLeaf.key "A" := ⟨_, rfl, rfl⟩
  have ha : Spells flippedStore flippedLeaf.lower "a" := ⟨_, rfl, rfl⟩
  have hz : Spells flippedStore flippedLeaf.upper "z" := ⟨_, rfl, rfl⟩
  have haz : "a" < "z" := by decide
  have hAa : "A" < "a" := by decide
  have hliteral : Lists flippedStore [literalLeaf.key, .bool true] [("A", .bool true)] :=
    .cons hA .nil
  have hflipped : Lists flippedStore [flippedLeaf.lower, .ref ⟨9, 0⟩, flippedLeaf.upper, .null]
      [("a", .ref ⟨9, 0⟩), ("z", .null)] := .cons ha (.cons hz .nil)
  refine ⟨.branch rfl (List.cons_ne_nil _ _) ?_ ?_ ?_ ?_, .inl rfl⟩
  · intro k hk
    fin_cases hk <;> rfl
  · intro k hk
    fin_cases hk
    · exact .leaf rfl rfl hliteral (List.pairwise_singleton _ _)
    · exact .leaf rfl rfl hflipped (List.pairwise_pair.mpr haz)
  · intro k hk
    fin_cases hk
    · refine ⟨_, _, "A", "A", rfl, hA, hA, ?_, ?_⟩ <;>
        simp [IsLeast, IsGreatest, lowerBounds, upperBounds, keys]
    · refine ⟨_, _, "a", "z", rfl, ha, hz, ?_, ?_⟩
      · simp [IsLeast, lowerBounds, keys, haz.le]
      · simp [IsGreatest, upperBounds, keys, haz.le]
  · refine List.pairwise_pair.mpr fun p hp q hq => ?_
    obtain rfl := List.mem_singleton.mp hp
    fin_cases hq
    · exact hAa
    · exact hAa.trans haz

theorem search_eq_lookup_mixedRoot :
    WellFormed flippedStore mixedRoot none (mixedKids.flatMap Kid.entries) ∧
      (ofRoot flippedStore mixedRoot none).search "z" = .ok (some ⟨.null, none⟩) ∧
      (ofRoot flippedStore mixedRoot none).search "b" = .ok none := by
  obtain ⟨hentries, -, hsearch⟩ := search_eq_lookup wellFormed_mixedRoot
  rw [hsearch, hsearch, hentries]
  exact ⟨wellFormed_mixedRoot, rfl, rfl⟩

end Folio.NameTree
