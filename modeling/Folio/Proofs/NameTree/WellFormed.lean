import Folio.Proofs.NameTree.Height

/-!
# Well-formed name trees

A name tree is well-formed if the keys of each leaf increase, the kids of each node have disjoint
ranges in increasing order, and the limits of each node but the root are its smallest and largest
key. Main statement: the list of entries of such a tree holds those of all its leaves in order, and
the keys increase.
-/

namespace Folio.NameTree

/-- Whether a key is a string, direct or indirect, that reads `text` after decryption. -/
def Spells (store : Store) (key : Object) (text : String) : Prop :=
  ∃ s, store.resolve? key = some (.str s) ∧ s.decryptedText store.security = .ok text

/-- Whether the items of an array are the keys and values of `pairs` in turn. -/
inductive Lists (store : Store) : List Object → List (String × Object) → Prop
  | nil : Lists store [] []
  | cons {key value : Object} {text : String} {items : List Object}
      {pairs : List (String × Object)} :
      Spells store key text → Lists store items pairs →
      Lists store (key :: value :: items) ((text, value) :: pairs)

/-- The keys of some entries. -/
def keys {α : Type} (entries : List (String × α)) : Set String := {key | key ∈ entries.map Prod.fst}

/-- Whether the keys of some entries strictly increase. -/
def Increasing {α : Type} (entries : List (String × α)) : Prop :=
  entries.Pairwise fun p q => p.1 < q.1

/-- Whether the limits that a dictionary states are exactly the smallest and the largest key of
the entries below it. -/
def Bounds (store : Store) (d : Dict) (entries : List (String × NameValue)) : Prop :=
  ∃ lower upper first last, store.entry? Object.array? d "Limits" = some [lower, upper] ∧
    Spells store lower first ∧ Spells store upper last ∧
    IsLeast (keys entries) first ∧ IsGreatest (keys entries) last

/-- A kid of a node: the item of the array of kids, the dictionary that it stands for, and the
entries below it. -/
structure Kid where
  object : Object
  dict : Dict
  entries : List (String × NameValue)

/-- Whether a dictionary, which is stored under `reference` if it is indirect, is the root of a
well-formed tree with the given entries whose leaves lie at most `height` levels below it. Of the
limits only those of the nodes below it count. -/
inductive IsNode (store : Store) :
    Nat → Dict → Option Ref → List (String × NameValue) → Prop
  | leaf {height : Nat} {d : Dict} {reference : Option Ref} {names : List Object}
      {pairs : List (String × Object)} :
      store.entry? Object.array? d "Kids" = none →
      store.entry? Object.array? d "Names" = some names →
      Lists store names pairs → Increasing pairs →
      IsNode store height d reference
        (pairs.map fun (key, o) => (key, (NameNode.ofDict store d reference).value store o))
  | branch {height : Nat} {d : Dict} {reference : Option Ref} {kids : List Kid} :
      store.entry? Object.array? d "Kids" = some (kids.map Kid.object) → kids ≠ [] →
      (∀ k ∈ kids, store.resolveAs? Object.dict? k.object = some k.dict) →
      (∀ k ∈ kids, IsNode store height k.dict k.object.ref? k.entries) →
      (∀ k ∈ kids, Bounds store k.dict k.entries) →
      (kids.Pairwise fun k l => ∀ p ∈ k.entries, ∀ q ∈ l.entries, p.1 < q.1) →
      IsNode store (height + 1) d reference (kids.flatMap Kid.entries)

/-- Whether a dictionary is the root of a well-formed name tree with the given entries. The root
may state no limits. -/
structure WellFormed (store : Store) (root : Dict) (reference : Option Ref)
    (entries : List (String × NameValue)) : Prop where
  isNode : IsNode store maxDepth root reference entries
  limits : store.entry? Object.array? root "Limits" = none ∨ Bounds store root entries

variable {store : Store} {d : Dict} {reference : Option Ref} {entries : List (String × NameValue)}

theorem mem_keys {α : Type} {entries : List (String × α)} {key : String} :
    key ∈ keys entries ↔ ∃ value, (key, value) ∈ entries := by
  simp [keys]

theorem mem_keys_of_mem {α : Type} {entries : List (String × α)} {p : String × α}
    (h : p ∈ entries) : p.1 ∈ keys entries := mem_keys.mpr ⟨p.2, h⟩

theorem mem_keys_flatMap {kids : List Kid} {key : String} :
    key ∈ keys (kids.flatMap Kid.entries) ↔ ∃ k ∈ kids, key ∈ keys k.entries := by
  simp only [mem_keys, List.mem_flatMap]
  constructor
  · rintro ⟨value, k, hk, h⟩
    exact ⟨k, hk, value, h⟩
  · rintro ⟨k, hk, value, h⟩
    exact ⟨value, k, hk, h⟩

/-! ## What the nodes of a well-formed tree read -/

theorem Spells.keyText_eq {key : Object} {text : String} (h : Spells store key text) :
    NameNode.keyText store key = text := by
  obtain ⟨s, hs, ht⟩ := h
  simp only [NameNode.keyText, hs, ht]

theorem Lists.pairs_eq {items : List Object} {pairs : List (String × Object)}
    (h : Lists store items pairs) : NameNode.pairs store items = pairs := by
  induction h with
  | nil => rfl
  | cons hkey _ ih => rw [NameNode.pairs, hkey.keyText_eq, ih]

theorem Bounds.limitsOf_eq (h : Bounds store d entries) :
    ∃ first last, NameNode.limitsOf store d = some (first, last) ∧
      IsLeast (keys entries) first ∧ IsGreatest (keys entries) last := by
  obtain ⟨lower, upper, first, last, hlimits, hlower, hupper, hfirst, hlast⟩ := h
  refine ⟨first, last, ?_, hfirst, hlast⟩
  simp only [NameNode.limitsOf, hlimits, hlower.keyText_eq, hupper.keyText_eq]

theorem limitsOf_eq_none (h : store.entry? Object.array? d "Limits" = none) :
    NameNode.limitsOf store d = none := by
  simp only [NameNode.limitsOf, h]

/-- The kids of a node that its objects describe, in order. -/
theorem filterMap_ofKid? {kids : List Kid}
    (hdict : ∀ k ∈ kids, store.resolveAs? Object.dict? k.object = some k.dict) :
    (kids.map Kid.object).filterMap (NameNode.ofKid? store) =
      kids.map fun k => NameNode.ofDict store k.dict k.object.ref? := by
  rw [List.filterMap_map, ← List.filterMap_eq_map]
  refine List.filterMap_congr fun k hk => ?_
  simp only [Function.comp_apply, NameNode.ofKid?, hdict k hk, Option.map_some]

/-! ## Heights and entries -/

theorem IsNode.heightWithin {height : Nat} (h : IsNode store height d reference entries) :
    HeightWithin store height d := by
  induction h with
  | @leaf height d reference names pairs hkids _ _ _ =>
    have hzero : HeightWithin store 0 d := by
      rintro e ⟨kids, h, -⟩
      rw [hkids] at h
      cases h
    exact hzero.mono (Nat.zero_le height)
  | branch hkids _ hdict _ _ _ ih =>
    rintro e ⟨objects, hobjects, object, hobject, he⟩
    rw [hkids] at hobjects
    obtain rfl := Option.some.inj hobjects
    obtain ⟨k, hk, rfl⟩ := List.mem_map.mp hobject
    rw [hdict k hk] at he
    exact Option.some.inj he ▸ ih k hk

theorem IsNode.increasing {height : Nat} (h : IsNode store height d reference entries) :
    Increasing entries := by
  induction h with
  | leaf _ _ _ hpairs => exact List.pairwise_map.mpr hpairs
  | branch _ _ _ _ _ hdisjoint ih =>
    exact List.pairwise_flatMap.mpr ⟨ih, hdisjoint⟩

theorem IsNode.entriesWithin_eq {height levels : Nat}
    (h : IsNode store height d reference entries) (hlevels : height < levels) :
    (NameNode.ofDict store d reference).entriesWithin store levels = entries := by
  induction h generalizing levels with
  | leaf hkids hnames hlists _ =>
    obtain ⟨levels, rfl⟩ := Nat.exists_eq_add_one_of_ne_zero (Nat.ne_zero_of_lt hlevels)
    simp only [NameNode.ofDict, NameNode.entriesWithin, NameNode.leafEntries, NameNode.pairsOf,
      hkids, hnames, Option.isSome_none, Bool.false_eq_true, if_false, Option.getD_some,
      hlists.pairs_eq]
  | @branch height d reference kids hkids _ hdict _ _ _ ih =>
    obtain ⟨levels, rfl⟩ := Nat.exists_eq_add_one_of_ne_zero (Nat.ne_zero_of_lt hlevels)
    simp only [NameNode.ofDict, NameNode.entriesWithin, hkids]
    rw [filterMap_ofKid? hdict, List.flatMap_map]
    exact List.flatMap_congr fun k hk => ih k hk (by omega)

theorem WellFormed.entries_eq (h : WellFormed store d reference entries) :
    (ofRoot store d reference).entries = entries :=
  h.isNode.entriesWithin_eq (Nat.lt_succ_self maxDepth)

end Folio.NameTree
