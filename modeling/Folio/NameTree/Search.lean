import Folio.NameTree.Node

/-!
# Searching name trees

A search descends by the limits of the nodes, halving the range of kids and of names at each step.
Where the limits of the kids contradict each other it falls back to trying all kids. A search that
comes by more nodes than there are objects goes round in a circle and would never end; that is an
error.
-/

namespace Folio

/-- The outcome of searching one node. -/
inductive Probe where
  /-- The name was found. -/
  | hit (value : NameValue)
  /-- The name lies within the limits of the node but is not there. -/
  | miss
  /-- The name comes before the lower limit. -/
  | below
  /-- The name comes after the upper limit. -/
  | above
  /-- No kid was left to search. -/
  | exhausted
  /-- The search does not end. -/
  | endless

namespace Probe

/-- Whether trying further kids is pointless. -/
def isFinal : Probe → Bool
  | hit _ | miss | endless => true
  | _ => false

end Probe

/-- Halves a range of pairs in ascending order, from `first` up to `last` exclusively, until the
name is found or nothing is left; at most `fuel` times. -/
def searchPairs (pairs : Array (String × Object)) (name : String) :
    Nat → Nat → Nat → Option Object
  | 0, _, _ => none
  | fuel + 1, first, last =>
    if last ≤ first then none
    else
      let pivot := (first + last - 1) / 2
      match pairs[pivot]? with
      | none => none
      | some (key, o) =>
        match compare key name with
        | .eq => some o
        | .gt => searchPairs pairs name fuel first pivot
        | .lt => searchPairs pairs name fuel (pivot + 1) last

/-- The first outcome that makes further kids pointless. -/
def scanKids (probe : Nat → Probe) : List Nat → Probe
  | [] => .exhausted
  | i :: rest =>
    let outcome := probe i
    if outcome.isFinal then outcome else scanKids probe rest

/-- Halves a range of kids, from `first` up to `last` exclusively, by the outcomes of `probe`; at
most `fuel` times. A kid with nothing left to search makes all others of the range be tried. -/
def searchKids (probe : Nat → Probe) : Nat → Nat → Nat → Probe
  | 0, _, _ => .exhausted
  | fuel + 1, first, last =>
    if last ≤ first then .exhausted
    else
      let pivot := first + (last - 1 - first) / 2
      match probe pivot with
      | .below => searchKids probe fuel first pivot
      | .above => searchKids probe fuel (pivot + 1) last
      | .exhausted =>
        scanKids probe (((List.range (last - first)).map (first + ·)).filter (· ≠ pivot))
      | found => found

namespace NameNode

/-- Searches the names of a leaf. A name equal to a limit is looked for at that end first. -/
def probeLeaf (store : Store) (n : NameNode) (name : String) : Probe :=
  let pairs := n.pairsOf store
  let atEnd (pair : Option (String × Object)) : Option Object :=
    pair.bind fun (key, o) => if key = name then some o else none
  let search :=
    match searchPairs pairs.toArray name (pairs.length + 1) 0 pairs.length with
    | some o => Probe.hit (n.value store o)
    | none => .miss
  match n.limits with
  | none => search
  | some (lower, upper) =>
    if name < lower then .below
    else
      match if lower = name then atEnd pairs.head? else none with
      | some o => .hit (n.value store o)
      | none =>
        if upper < name then .above
        else
          match if upper = name then atEnd pairs.getLast? else none with
          | some o => .hit (n.value store o)
          | none => search

/-- Searches a node and at most `levels` nodes below each other. -/
def probe (store : Store) (name : String) : Nat → NameNode → Probe
  | 0, _ => .endless
  | levels + 1, n =>
    let probeKid (index : Nat) : Probe :=
      match n.kid? store index with
      | some kid => probe store name levels kid
      | none => .exhausted
    if n.kids.isSome then
      let search := searchKids probeKid (n.kidCount + 1) 0 n.kidCount
      match n.limits with
      | none => search
      | some (lower, upper) =>
        if name < lower then .below
        else if lower = name then probeKid 0
        else if upper < name then .above
        else if upper = name then probeKid (n.kidCount - 1)
        else search
    else if n.names.isSome then n.probeLeaf store name
    else .miss

end NameNode

/-- A name tree of a document. -/
structure NameTree where
  store : Store
  root : NameNode
  /-- A number of nodes that no path to a name exceeds. -/
  bound : Nat

namespace NameTree

/-- The name tree whose root a dictionary describes. -/
def ofRoot (store : Store) (root : Dict) (reference : Option Ref) : NameTree :=
  ⟨store, .ofDict store root reference, store.nodes + (Object.dict root).nodes + 1⟩

/-- The name tree under a key of the names dictionary of a document's catalog. -/
def ofCatalog? (store : Store) (catalog : Dict) (kind : Name) : Option NameTree := do
  let names ← store.entry? Object.dict? catalog "Names"
  let root ← store.entry? Object.dict? names kind
  some (ofRoot store root (names.getRef? kind))

/-- The depth beyond which nodes are left out of the list of entries. -/
def maxDepth : Nat := 64

/-- The entries of the tree in order. -/
def entries (t : NameTree) : List (String × NameValue) :=
  t.root.entriesWithin t.store (maxDepth + 1)

/-- Why a search has no answer. -/
inductive SearchError where
  /-- The search goes round in a circle of nodes. -/
  | endless
deriving DecidableEq

/-- The value under a name, if there is one. -/
def search (t : NameTree) (name : String) : Except SearchError (Option NameValue) :=
  match t.root.probe t.store name t.bound with
  | .hit value => .ok (some value)
  | .endless => .error .endless
  | _ => .ok none

end NameTree

end Folio
