import Folio.Proofs.NameTree.Soundness

/-!
# When a search ends

Nothing stops a search from coming back to a node that it is still busy with. Main statement: this is
the only way in which a search does not end. If the nodes that it comes to do not form a circle, it
has an answer, whatever circles the rest of the tree has.

Each node of the document is told apart by the object that describes it, so a search that comes by
more nodes below each other than there are objects has come by one of them twice.
-/

namespace Folio.NameTree

/-- Whether the search of a node goes on to a kid. Which kid is tried after another depends on the outcome
of that one, so some number of levels below the node must suffice to get there. -/
def ComesTo (store : Store) (name : String) (n kid : NameNode) : Prop :=
  ∃ levels, ∃ i ∈ (route store n name).tried (probeAt store n name levels),
    n.kid? store i = some kid

variable {store : Store} {name : String} {n kid : NameNode} {d : Dict} {reference : Option Ref}

/-! ## More levels -/

/-- Levels that change nothing for a node whose search has ended change nothing for the kids of one. -/
theorem refines_of_probe_eq {levels more : Nat}
    (h : ∀ kid : NameNode, kid.probe store name levels ≠ .endless →
      kid.probe store name more = kid.probe store name levels) :
    Refines (probeAt store n name levels) (probeAt store n name more) := by
  intro i hi
  unfold probeAt at hi ⊢
  cases hkid : n.kid? store i with
  | none => rfl
  | some kid =>
    simp only [hkid] at hi
    exact h kid hi

/-- An outcome that was found within some levels is found with one more, by induction on the levels. -/
theorem probe_succ_eq {levels : Nat} (hend : n.probe store name levels ≠ .endless) :
    n.probe store name (levels + 1) = n.probe store name levels := by
  induction levels generalizing n with
  | zero => exact absurd rfl hend
  | succ levels ih =>
    rw [probe_succ] at hend
    rw [probe_succ, probe_succ]
    exact ((refines_of_probe_eq fun kid => ih).congr hend).2

theorem probe_eq_of_le {levels more : Nat} (hle : levels ≤ more)
    (hend : n.probe store name levels ≠ .endless) :
    n.probe store name more = n.probe store name levels := by
  induction more, hle using Nat.le_induction with
  | base => rfl
  | succ more hle ih =>
    rw [← ih] at hend ⊢
    exact probe_succ_eq hend

theorem refines_probeAt {levels more : Nat} (hle : levels ≤ more) :
    Refines (probeAt store n name levels) (probeAt store n name more) :=
  refines_of_probe_eq fun _ => probe_eq_of_le hle

/-! ## Ends are handed on -/

/-- A search that runs out of levels has gone on to a kid and runs out of levels there. -/
theorem exists_comesTo_of_endless {levels : Nat}
    (h : n.probe store name (levels + 1) = .endless) :
    ∃ kid, ComesTo store name n kid ∧ kid.probe store name levels = .endless := by
  rw [probe_succ] at h
  rcases Route.outcome_cases (probeAt store n name levels) (route store n name) with
    ⟨outcome, hroute⟩ | hnone | ⟨i, hi, houtcome⟩
  · rw [hroute] at h
    rcases answer_cases hroute with ⟨-, rfl⟩ | rfl | rfl | rfl
    · exact absurd h (probeLeaf_sound store n name).ne_endless
    all_goals cases h
  · rw [hnone] at h
    cases h
  · rw [houtcome, probeAt] at h
    cases hkid : n.kid? store i with
    | none => simp [hkid] at h
    | some kid =>
      simp only [hkid] at h
      exact ⟨kid, ⟨levels, i, hi, hkid⟩, h⟩

/-- A search that needs so many levels needs fewer at every kid it goes on to. -/
theorem ComesTo.probe_ne_endless (h : ComesTo store name n kid) {levels : Nat}
    (hend : n.probe store name (levels + 1) ≠ .endless) :
    kid.probe store name levels ≠ .endless := by
  obtain ⟨more, i, hi, hkid⟩ := h
  rw [probe_succ] at hend
  have htried : i ∈ (route store n name).tried (probeAt store n name levels) := by
    rcases le_total more levels with hle | hle
    · exact (refines_probeAt hle).tried_subset _ hi
    · rw [((refines_probeAt hle).congr hend).1] at hi
      exact hi
  intro hendless
  refine hend (Route.outcome_endless htried ?_)
  rw [probeAt, hkid]
  exact hendless

/-- Whether the search of a node ends. -/
def Ends (store : Store) (name : String) (n : NameNode) : Prop :=
  ∃ levels, n.probe store name levels ≠ .endless

theorem Ends.of_reflTransGen (h : Ends store name n)
    (hpath : Relation.ReflTransGen (ComesTo store name) n kid) : Ends store name kid := by
  induction hpath with
  | refl => exact h
  | tail _ hstep ih =>
    obtain ⟨levels, hend⟩ := ih
    rw [← probe_succ_eq hend] at hend
    exact ⟨levels, hstep.probe_ne_endless hend⟩

theorem exists_lt_of_transGen (hpath : Relation.TransGen (ComesTo store name) n kid) {levels : Nat}
    (hend : n.probe store name levels ≠ .endless) :
    ∃ fewer < levels, kid.probe store name fewer ≠ .endless := by
  induction hpath with
  | single hstep =>
    cases levels with
    | zero => exact absurd rfl hend
    | succ levels => exact ⟨levels, Nat.lt_succ_self _, hstep.probe_ne_endless hend⟩
  | tail _ hstep ih =>
    obtain ⟨fewer, hlt, hend⟩ := ih
    cases fewer with
    | zero => exact absurd rfl hend
    | succ fewer => exact ⟨fewer, Nat.lt_of_succ_lt hlt, hstep.probe_ne_endless hend⟩

/-- The search of a node on a circle does not end: each round would need fewer levels than the one
before. -/
theorem not_ends_of_transGen (hcircle : Relation.TransGen (ComesTo store name) n n) :
    ¬ Ends store name n := by
  classical
  intro hends
  obtain ⟨fewer, hlt, hend⟩ := exists_lt_of_transGen hcircle (Nat.find_spec hends)
  exact Nat.find_min hends hlt hend

/-! ## Paths -/

/-- A search that runs out of levels has gone on from node to node so many times. -/
theorem exists_chain_of_endless {levels : Nat} (h : n.probe store name levels = .endless) :
    ∃ path : List NameNode, path.length = levels ∧ List.IsChain (ComesTo store name) (n :: path) := by
  induction levels generalizing n with
  | zero => exact ⟨[], rfl, List.isChain_singleton n⟩
  | succ levels ih =>
    obtain ⟨kid, hstep, hkid⟩ := exists_comesTo_of_endless h
    obtain ⟨path, hlen, hpath⟩ := ih hkid
    exact ⟨kid :: path, congrArg (· + 1) hlen, List.isChain_cons_cons.mpr ⟨hstep, hpath⟩⟩

/-- A kid of a node, which a dictionary of the document describes, is described by one of its objects. -/
theorem exists_mem_pool_of_kid? {e : Dict} (he : .dict e ∈ pool store d) {i : Nat}
    (h : (NameNode.ofDict store e reference).kid? store i = some kid) :
    ∃ o ∈ pool store d, NameNode.ofKid? store o = some kid := by
  obtain ⟨kids, hkids, o, ho, hkid, -⟩ := exists_isKid_of_kid? h
  exact ⟨o, mem_pool_of_mem_kids (List.subset_append_left _ _) (fun o => parts_subset_pool) he
    hkids ho, hkid⟩

/-- The nodes that a search comes to below the root are described by objects of the document. -/
theorem exists_mem_pool_of_transGen
    (hpath : Relation.TransGen (ComesTo store name) (NameNode.ofDict store d reference) kid) :
    ∃ o ∈ pool store d, NameNode.ofKid? store o = some kid := by
  induction hpath with
  | single hstep =>
    obtain ⟨_, i, -, hkid⟩ := hstep
    exact exists_mem_pool_of_kid? (mem_pool_self store d) hkid
  | tail _ hstep ih =>
    obtain ⟨o, ho, hnode⟩ := ih
    obtain ⟨e, he, rfl⟩ := Option.map_eq_some_iff.mp hnode
    obtain ⟨_, i, -, hkid⟩ := hstep
    exact exists_mem_pool_of_kid?
      (mem_pool_of_resolveAs? (List.subset_append_left _ _) ho he) hkid

/-- Whether the nodes that the search for a name comes to form a circle somewhere. -/
def GoesRound (store : Store) (name : String) (root : NameNode) : Prop :=
  ∃ n, Relation.ReflTransGen (ComesTo store name) root n ∧
    Relation.TransGen (ComesTo store name) n n

/-- A path that does not go round in a circle has no node twice, so it has at most as many nodes
below the root as the document has objects. -/
theorem length_le_of_isChain {path : List NameNode}
    (hpath : List.IsChain (ComesTo store name) (NameNode.ofDict store d reference :: path))
    (hround : ¬ GoesRound store name (NameNode.ofDict store d reference)) :
    path.length ≤ (pool store d).length := by
  classical
  have hpairs : (NameNode.ofDict store d reference :: path).Pairwise
      (Relation.TransGen (ComesTo store name)) :=
    (hpath.imp fun _ _ => Relation.TransGen.single).pairwise
  obtain ⟨hroot, hpairs⟩ := List.pairwise_cons.mp hpairs
  have hnodup : path.Nodup := by
    refine hpairs.imp_of_mem fun {a b} ha _ hab heq => ?_
    subst heq
    exact hround ⟨a, (hroot a ha).to_reflTransGen, hab⟩
  calc path.length ≤ ((pool store d).filterMap (NameNode.ofKid? store)).length := by
        refine (List.subperm_of_subset hnodup fun m hm => ?_).length_le
        obtain ⟨o, ho, hnode⟩ := exists_mem_pool_of_transGen (hroot m hm)
        exact List.mem_filterMap.mpr ⟨o, ho, hnode⟩
    _ ≤ (pool store d).length := List.length_filterMap_le _ _

theorem exists_search_eq_iff {t : NameTree} :
    (∃ found, t.search name = .ok found) ↔ t.root.probe t.store name t.bound ≠ .endless := by
  constructor
  · rintro ⟨found, hfound⟩ hendless
    rw [NameTree.search, hendless] at hfound
    cases hfound
  · intro hend
    exact ⟨_, search_eq_valueOf? hend⟩

/-- A search has an answer if and only if the nodes that it comes to nowhere form a circle. -/
theorem search_ends_iff (store : Store) (d : Dict) (reference : Option Ref) (name : String) :
    (∃ found, (ofRoot store d reference).search name = .ok found) ↔
      ¬ GoesRound store name (ofRoot store d reference).root := by
  rw [exists_search_eq_iff]
  constructor
  · rintro hend ⟨n, hpath, hcircle⟩
    exact not_ends_of_transGen hcircle (Ends.of_reflTransGen ⟨_, hend⟩ hpath)
  · intro hround hendless
    obtain ⟨path, hlen, hpath⟩ := exists_chain_of_endless hendless
    have hle : path.length ≤ (pool store d).length := length_le_of_isChain hpath hround
    have hbound : (ofRoot store d reference).bound = (pool store d).length + 1 := by
      rw [length_pool]
      rfl
    omega

/-- A root whose only kid refers back to it. -/
def selfKid : Dict := ⟨[("Kids", .array [.ref ⟨1, 0⟩])]⟩

/-- Not every search has an answer: one that starts at a node with itself as its kid goes on to that
kid for ever. -/
theorem search_selfKid :
    ¬ ∀ (store : Store) (d : Dict) (reference : Option Ref) (name : String),
      ∃ found, (ofRoot store d reference).search name = .ok found := by
  intro h
  obtain ⟨found, hfound⟩ := h ⟨[(⟨1, 0⟩, .dict selfKid)], none⟩ selfKid (some ⟨1, 0⟩) "a"
  cases hfound

/-- In a tree that has a height every search has an answer. -/
theorem HeightWithin.search_ends {height : Nat} (h : HeightWithin store height d)
    (reference : Option Ref) (name : String) :
    ∃ found, (ofRoot store d reference).search name = .ok found := by
  obtain ⟨height, hlt, hheight⟩ := h.exists_lt_nodes
  exact exists_search_eq_iff.mpr
    (probe_sound name hheight (Nat.lt_succ_self height) (Nat.lt_succ_of_lt hlt)).ne_endless

end Folio.NameTree
