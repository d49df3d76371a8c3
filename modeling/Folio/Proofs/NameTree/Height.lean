import Mathlib
import Folio.NameTree.Search

/-!
# The height of name trees

The kids of a node are the dictionaries that the items of its `/Kids` resolve to. A tree has a height
if its kids relation does not go round in a circle. Main statement: such a height lies below the
number of objects of the document, so the bound of a search never cuts off a path.

A longest path consists of different dictionaries, each of which is a part of the root or of an
object in the store; this is what the bound counts.
-/

namespace Folio

namespace Object

mutual

/-- The objects that an object consists of, itself first. -/
def parts : Object → List Object
  | .array items => .array items :: partsOfItems items
  | .dict ⟨entries⟩ => .dict ⟨entries⟩ :: partsOfEntries entries
  | .stream ⟨⟨entries⟩, data, reference⟩ =>
    .stream ⟨⟨entries⟩, data, reference⟩ :: partsOfEntries entries
  | o => [o]

/-- The objects in a list. -/
def partsOfItems : List Object → List Object
  | [] => []
  | x :: xs => parts x ++ partsOfItems xs

/-- The objects in a list of entries. -/
def partsOfEntries : List (Name × Object) → List Object
  | [] => []
  | (_, x) :: xs => parts x ++ partsOfEntries xs

end

mutual

@[simp] theorem length_parts : ∀ o : Object, o.parts.length = o.nodes
  | .array items => by
      rw [parts, nodes, List.length_cons, length_partsOfItems items, Nat.add_comm]
  | .dict ⟨entries⟩ => by
      rw [parts, nodes, List.length_cons, length_partsOfEntries entries, Nat.add_comm]
  | .stream ⟨⟨entries⟩, _, _⟩ => by
      rw [parts, nodes, List.length_cons, length_partsOfEntries entries, Nat.add_comm]
  | .null | .bool _ | .number _ | .str _ | .name _ | .ref _ => rfl

theorem length_partsOfItems : ∀ items, (partsOfItems items).length = nodesOfItems items
  | [] => rfl
  | x :: xs => by
      rw [partsOfItems, nodesOfItems, List.length_append, length_parts x, length_partsOfItems xs]

theorem length_partsOfEntries : ∀ entries, (partsOfEntries entries).length = nodesOfEntries entries
  | [] => rfl
  | (_, x) :: xs => by
      rw [partsOfEntries, nodesOfEntries, List.length_append, length_parts x,
        length_partsOfEntries xs]

end

@[simp] theorem parts_array (items : List Object) :
    (array items).parts = .array items :: partsOfItems items := rfl

@[simp] theorem parts_dict (d : Dict) :
    (dict d).parts = .dict d :: partsOfEntries d.entries := by
  cases d; rfl

@[simp] theorem parts_stream (s : Stream) :
    (stream s).parts = .stream s :: partsOfEntries s.dict.entries := by
  obtain ⟨⟨_⟩, _, _⟩ := s; rfl

theorem mem_parts_self (o : Object) : o ∈ o.parts := by
  cases o with
  | array items => simp
  | dict d => simp
  | stream s => simp
  | null | bool _ | number _ | str _ | name _ | ref _ => exact List.mem_singleton_self _

theorem parts_subset_partsOfItems {x : Object} {items : List Object} (h : x ∈ items) :
    x.parts ⊆ partsOfItems items := by
  induction items with
  | nil => simp at h
  | cons y ys ih =>
    rw [partsOfItems]
    rcases List.mem_cons.mp h with rfl | h
    · exact List.subset_append_left _ _
    · exact fun p hp => List.mem_append_right _ (ih h hp)

theorem parts_subset_partsOfEntries {key : Name} {x : Object} {entries : List (Name × Object)}
    (h : (key, x) ∈ entries) : x.parts ⊆ partsOfEntries entries := by
  induction entries with
  | nil => simp at h
  | cons y ys ih =>
    obtain ⟨k, v⟩ := y
    rw [partsOfEntries]
    rcases List.mem_cons.mp h with h | h
    · obtain ⟨-, rfl⟩ := Prod.mk.inj h
      exact List.subset_append_left _ _
    · exact fun p hp => List.mem_append_right _ (ih h hp)

mutual

/-- What a part consists of belongs to the whole. -/
theorem parts_trans : ∀ {o p : Object}, p ∈ o.parts → p.parts ⊆ o.parts
  | .array items, p, h => by
      rw [parts_array] at h
      rcases List.mem_cons.mp h with rfl | h
      · exact List.Subset.refl _
      · rw [parts_array]
        exact fun q hq => List.mem_cons_of_mem _ (partsOfItems_trans h hq)
  | .dict ⟨entries⟩, p, h => by
      rw [parts_dict] at h
      rcases List.mem_cons.mp h with rfl | h
      · exact List.Subset.refl _
      · rw [parts_dict]
        exact fun q hq => List.mem_cons_of_mem _ (partsOfEntries_trans h hq)
  | .stream ⟨⟨entries⟩, _, _⟩, p, h => by
      rw [parts_stream] at h
      rcases List.mem_cons.mp h with rfl | h
      · exact List.Subset.refl _
      · rw [parts_stream]
        exact fun q hq => List.mem_cons_of_mem _ (partsOfEntries_trans h hq)
  | .null, p, h | .bool _, p, h | .number _, p, h | .str _, p, h | .name _, p, h | .ref _, p, h => by
      rcases List.mem_singleton.mp h with rfl
      exact List.Subset.refl _

theorem partsOfItems_trans : ∀ {items : List Object} {p : Object},
    p ∈ partsOfItems items → p.parts ⊆ partsOfItems items
  | [], _, h => by simp [partsOfItems] at h
  | x :: xs, p, h => by
      rw [partsOfItems] at h ⊢
      rcases List.mem_append.mp h with h | h
      · exact fun q hq => List.mem_append_left _ (parts_trans h hq)
      · exact fun q hq => List.mem_append_right _ (partsOfItems_trans h hq)

theorem partsOfEntries_trans : ∀ {entries : List (Name × Object)} {p : Object},
    p ∈ partsOfEntries entries → p.parts ⊆ partsOfEntries entries
  | [], _, h => by simp [partsOfEntries] at h
  | (_, x) :: xs, p, h => by
      rw [partsOfEntries] at h ⊢
      rcases List.mem_append.mp h with h | h
      · exact fun q hq => List.mem_append_left _ (parts_trans h hq)
      · exact fun q hq => List.mem_append_right _ (partsOfEntries_trans h hq)

end

end Object

theorem Dict.mem_entries_of_get? {d : Dict} {key : Name} {o : Object} (h : d.get? key = some o) :
    (key, o) ∈ d.entries := by
  unfold Dict.get? at h
  induction hd : d.entries generalizing d with
  | nil => simp [hd, findEntry] at h
  | cons e rest ih =>
    obtain ⟨k, v⟩ := e
    rw [hd, findEntry] at h
    split at h
    · rename_i hk
      subst hk
      simp at h
      simp [h]
    · exact List.mem_cons_of_mem _ (ih (d := ⟨rest⟩) h rfl)

namespace Store

/-- The objects that the objects of the store consist of. -/
def parts (s : Store) : List Object := s.objects.flatMap fun (_, o) => o.parts

@[simp] theorem length_parts (s : Store) : s.parts.length = s.nodes := by
  have go : ∀ (objects : List (Ref × Object)) (n : Nat),
      objects.foldl (fun count (_, o) => count + o.nodes) n =
        n + (objects.flatMap fun (_, o) => o.parts).length := by
    intro objects
    induction objects with
    | nil => intro n; simp
    | cons e rest ih =>
      intro n
      rw [List.foldl_cons, ih, List.flatMap_cons, List.length_append, Object.length_parts,
        Nat.add_assoc]
  rw [parts, nodes, go, Nat.zero_add]

theorem mem_objects_of_get? {s : Store} {target : Ref} {o : Object} (h : s.get? target = some o) :
    (target, o) ∈ s.objects := by
  unfold get? at h
  induction ho : s.objects generalizing s with
  | nil => simp [ho, findObject] at h
  | cons e rest ih =>
    obtain ⟨r, p⟩ := e
    rw [ho, findObject] at h
    split at h
    · rename_i hr
      subst hr
      simp at h
      simp [h]
    · exact List.mem_cons_of_mem _ (ih (s := { s with objects := rest }) h rfl)

/-- Following references leads to the object itself or into the store. -/
theorem mem_of_follow? {s : Store} {o p : Object} {pool : List Object} (hs : s.parts ⊆ pool)
    (ho : o ∈ pool) {steps : Nat} (h : s.follow? steps o = some p) : p ∈ pool := by
  induction steps generalizing o with
  | zero => simp [follow?] at h
  | succ steps ih =>
    cases o with
    | ref target =>
      rw [follow?] at h
      obtain ⟨q, hq, h⟩ := Option.bind_eq_some_iff.mp h
      refine ih (hs ?_) h
      exact List.mem_flatMap.mpr ⟨_, mem_objects_of_get? hq, Object.mem_parts_self q⟩
    | null | bool _ | number _ | str _ | name _ | array _ | dict _ | stream _ =>
      simp [follow?] at h
      exact h ▸ ho

end Store

namespace NameTree

/-- Whether `e` is the dictionary of a kid of the node that `d` describes. -/
def IsKid (store : Store) (d e : Dict) : Prop :=
  ∃ kids, store.entry? Object.array? d "Kids" = some kids ∧
    ∃ kid ∈ kids, store.resolveAs? Object.dict? kid = some e

/-- Whether no path of kids from a dictionary has more than `height` steps. -/
def HeightWithin (store : Store) : Nat → Dict → Prop
  | 0, d => ∀ e, ¬ IsKid store d e
  | height + 1, d => ∀ e, IsKid store d e → HeightWithin store height e

variable {store : Store} {d e : Dict}

theorem HeightWithin.succ {height : Nat} (h : HeightWithin store height d) :
    HeightWithin store (height + 1) d := by
  induction height generalizing d with
  | zero => exact fun e he => absurd he (h e)
  | succ height ih => exact fun e he => ih (h e he)

theorem HeightWithin.mono {m n : Nat} (hmn : m ≤ n) (h : HeightWithin store m d) :
    HeightWithin store n d := by
  induction hmn with
  | refl => exact h
  | step _ ih => exact ih.succ

/-- A set of objects that contains the store and all parts of its members contains the items of the
arrays of kids in it. -/
theorem mem_pool_of_mem_kids {pool : List Object} (hs : store.parts ⊆ pool)
    (hpool : ∀ o ∈ pool, o.parts ⊆ pool) (hd : .dict d ∈ pool) {kids : List Object}
    (hkids : store.entry? Object.array? d "Kids" = some kids) {kid : Object} (hkid : kid ∈ kids) :
    kid ∈ pool := by
  obtain ⟨o, ho, hkids⟩ := Option.bind_eq_some_iff.mp hkids
  obtain ⟨a, ha, hkids⟩ := Option.bind_eq_some_iff.mp hkids
  have ho : o ∈ pool := by
    refine hpool _ hd ?_
    rw [Object.parts_dict]
    exact List.mem_cons_of_mem _
      (Object.parts_subset_partsOfEntries (Dict.mem_entries_of_get? ho) (Object.mem_parts_self o))
  have ha : a ∈ pool := Store.mem_of_follow? hs ho ha
  cases a <;> simp [Object.array?] at hkids
  subst hkids
  refine hpool _ ha ?_
  rw [Object.parts_array]
  exact List.mem_cons_of_mem _ (Object.parts_subset_partsOfItems hkid (Object.mem_parts_self kid))

/-- The dictionary that an object of such a set stands for belongs to it. -/
theorem mem_pool_of_resolveAs? {pool : List Object} (hs : store.parts ⊆ pool) {o : Object}
    (ho : o ∈ pool) (h : store.resolveAs? Object.dict? o = some e) : .dict e ∈ pool := by
  obtain ⟨b, hb, he⟩ := Option.bind_eq_some_iff.mp h
  have hb : b ∈ pool := Store.mem_of_follow? hs ho hb
  cases b <;> simp [Object.dict?] at he
  exact he ▸ hb

theorem IsKid.mem_pool {pool : List Object} (hs : store.parts ⊆ pool)
    (hpool : ∀ o ∈ pool, o.parts ⊆ pool) (hd : .dict d ∈ pool) (h : IsKid store d e) :
    .dict e ∈ pool := by
  obtain ⟨kids, hkids, kid, hkid, he⟩ := h
  exact mem_pool_of_resolveAs? hs (mem_pool_of_mem_kids hs hpool hd hkids hkid) he

/-- From a dictionary of exact height `height` there is a path of so many steps, and no dictionary
comes twice on it since the heights decrease. -/
theorem exists_path {pool : List Object} (hs : store.parts ⊆ pool)
    (hpool : ∀ o ∈ pool, o.parts ⊆ pool) {height : Nat} (hd : .dict d ∈ pool)
    (h : HeightWithin store height d) (hmin : ∀ m < height, ¬ HeightWithin store m d) :
    ∃ path : List Dict, path.length = height + 1 ∧ path.Nodup ∧
      ∀ e ∈ path, .dict e ∈ pool ∧ HeightWithin store height e := by
  induction height generalizing d with
  | zero => exact ⟨[d], rfl, List.nodup_singleton d, by simpa using ⟨hd, h⟩⟩
  | succ height ih =>
    obtain ⟨e, hkid, hemin⟩ : ∃ e, IsKid store d e ∧ ∀ m < height, ¬ HeightWithin store m e := by
      by_contra hno
      push Not at hno
      cases height with
      | zero =>
        refine hmin 0 (Nat.zero_lt_succ 0) fun e he => ?_
        obtain ⟨m, hm, -⟩ := hno e he
        omega
      | succ height =>
        refine hmin (height + 1) (Nat.lt_succ_self _) fun e he => ?_
        obtain ⟨m, hm, hw⟩ := hno e he
        exact hw.mono (by omega)
    obtain ⟨path, hlen, hnodup, hmem⟩ := ih (hkid.mem_pool hs hpool hd) (h e hkid) hemin
    refine ⟨d :: path, by simp [hlen], List.nodup_cons.mpr ⟨fun hin => ?_, hnodup⟩, ?_⟩
    · exact hmin height (Nat.lt_succ_self _) (hmem d hin).2
    · intro f hf
      rcases List.mem_cons.mp hf with rfl | hf
      · exact ⟨hd, h⟩
      · exact ⟨(hmem f hf).1, (hmem f hf).2.succ⟩

/-- The objects that a document and a dictionary beside it consist of. -/
def pool (store : Store) (d : Dict) : List Object := store.parts ++ (Object.dict d).parts

theorem length_pool (store : Store) (d : Dict) :
    (pool store d).length = store.nodes + (Object.dict d).nodes := by
  rw [pool, List.length_append, Store.length_parts, Object.length_parts]

theorem mem_pool_self (store : Store) (d : Dict) : .dict d ∈ pool store d :=
  List.mem_append_right _ (Object.mem_parts_self _)

theorem parts_subset_pool {o : Object} (ho : o ∈ pool store d) : o.parts ⊆ pool store d := by
  intro p hp
  rcases List.mem_append.mp ho with ho | ho
  · obtain ⟨entry, hentry, ho⟩ := List.mem_flatMap.mp ho
    exact List.mem_append_left _
      (List.mem_flatMap.mpr ⟨entry, hentry, Object.parts_trans ho hp⟩)
  · exact List.mem_append_right _ (Object.parts_trans ho hp)

/-- A name tree that has a height has one below the number of objects of the document. -/
theorem HeightWithin.exists_lt_nodes {height : Nat} (h : HeightWithin store height d) :
    ∃ m < store.nodes + (Object.dict d).nodes, HeightWithin store m d := by
  classical
  have hex : ∃ n, HeightWithin store n d := ⟨height, h⟩
  obtain ⟨path, hlen, hnodup, hmem⟩ := exists_path (List.subset_append_left _ _)
    (fun o => parts_subset_pool) (mem_pool_self store d) (Nat.find_spec hex)
    fun m hm => Nat.find_min hex hm
  refine ⟨Nat.find hex, ?_, Nat.find_spec hex⟩
  have hinj : Function.Injective Object.dict := fun a b hab => Object.dict.inj hab
  have hle : (path.map Object.dict).length ≤ (pool store d).length := by
    refine (List.subperm_of_subset (hnodup.map hinj) fun o ho => ?_).length_le
    obtain ⟨e, he, rfl⟩ := List.mem_map.mp ho
    exact (hmem e he).1
  rw [List.length_map, hlen, length_pool] at hle
  omega

end NameTree

end Folio
