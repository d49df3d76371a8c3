import Folio.Store.Basic

/-!
# Nodes of name trees

A name tree maps texts to objects. A node has either kids, which are nodes, or names, an array of
keys and values in turn. It may state limits, the smallest and the largest key below it. Keys are
decrypted if the document is encrypted.
-/

namespace Folio

/-- A node of a name tree. -/
structure NameNode where
  /-- The indirect object that the node is stored in. -/
  reference : Option Ref
  kids : Option (List Object)
  /-- The keys and values in turn, for a node without kids. -/
  names : Option (List Object)
  limits : Option (String × String)

/-- A value of a name tree and the indirect object it comes from, if it was stored indirectly or is
an array in an indirect node. -/
structure NameValue where
  object : Object
  reference : Option Ref

namespace NameNode

/-- The text of a key, empty if it is no string. A string that cannot be decrypted is read as it
is. -/
def keyText (store : Store) (key : Object) : String :=
  match store.resolve? key with
  | some (.str s) =>
    match s.decryptedText store.security with
    | .ok text => text
    | .error _ => s.text
  | _ => ""

/-- The limits that a dictionary states. -/
def limitsOf (store : Store) (d : Dict) : Option (String × String) :=
  match store.entry? Object.array? d "Limits" with
  | some (lower :: upper :: _) => some (keyText store lower, keyText store upper)
  | _ => none

/-- The node that a dictionary describes. -/
def ofDict (store : Store) (d : Dict) (reference : Option Ref) : NameNode :=
  let kids := store.entry? Object.array? d "Kids"
  { reference
    kids
    names := if kids.isSome then none else store.entry? Object.array? d "Names"
    limits := limitsOf store d }

/-- Whether the node has no kids. -/
def isLeaf (n : NameNode) : Bool := n.kids.isNone

/-- The number of kids. -/
def kidCount (n : NameNode) : Nat := (n.kids.getD []).length

/-- The kid that an object describes, if it is a dictionary. -/
def ofKid? (store : Store) (kid : Object) : Option NameNode :=
  (store.resolveAs? Object.dict? kid).map fun d => ofDict store d kid.ref?

/-- The kid at an index. -/
def kid? (store : Store) (n : NameNode) (index : Nat) : Option NameNode :=
  (n.kids.getD [])[index]?.bind (ofKid? store)

/-- The pairs in a list of keys and values in turn; a key without a value is dropped. -/
def pairs (store : Store) : List Object → List (String × Object)
  | key :: value :: rest => (keyText store key, value) :: pairs store rest
  | _ => []

/-- The keys of a leaf with their values as they are stored. -/
def pairsOf (store : Store) (n : NameNode) : List (String × Object) :=
  pairs store (n.names.getD [])

/-- A value as it is stored in a node, resolved. -/
def value (store : Store) (n : NameNode) (o : Object) : NameValue :=
  match o with
  | .ref target => ⟨(store.resolve? o).getD .null, some target⟩
  | .array _ => ⟨o, n.reference⟩
  | _ => ⟨o, none⟩

/-- The entries of a leaf. -/
def leafEntries (store : Store) (n : NameNode) : List (String × NameValue) :=
  (n.pairsOf store).map fun (key, o) => (key, n.value store o)

/-- The entries below a node in order, those of nodes more than `levels` below it left out. -/
def entriesWithin (store : Store) : Nat → NameNode → List (String × NameValue)
  | 0, _ => []
  | levels + 1, n =>
    match n.kids with
    | some kids => (kids.filterMap (ofKid? store)).flatMap (entriesWithin store levels)
    | none => n.leafEntries store

end NameNode

end Folio
