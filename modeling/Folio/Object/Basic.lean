import Folio.Object.Name
import Folio.Object.Number
import Folio.Object.Str

/-!
# Objects

An object is a scalar, a container of objects, or a reference to an indirect object. A dictionary
is kept as a list of entries in ascending order of their keys, so a dictionary has one
representation and its entries are listed in that order. `Object.same` compares objects.
-/

namespace Folio

mutual

/-- An object of a document. -/
inductive Object where
  | null
  | bool (value : Bool)
  | number (value : Number)
  | str (value : Str)
  | name (value : Name)
  | array (items : List Object)
  | dict (value : Dict)
  | stream (value : Stream)
  | ref (target : Ref)

/-- A dictionary: entries in ascending order of their keys. -/
structure Dict where
  entries : List (Name × Object)

/-- A stream: a dictionary with raw data, which may be encoded and encrypted. -/
structure Stream where
  dict : Dict
  data : Bytes
  /-- The indirect object that the stream is stored in. -/
  reference : Option Ref

end

instance : Inhabited Object := ⟨.null⟩

namespace Object

/-- The object of an integer. -/
def ofInt (value : Int64) : Object := .number (.integer value)

mutual

/-- Equality of objects. Numbers compare as `Number.same` says, so a NaN differs from itself. -/
def same : Object → Object → Bool
  | .null, .null => true
  | .bool a, .bool b => a == b
  | .number a, .number b => a.same b
  | .str a, .str b => a == b
  | .name a, .name b => a == b
  | .array xs, .array ys => sameItems xs ys
  | .dict ⟨xs⟩, .dict ⟨ys⟩ => sameEntries xs ys
  | .stream ⟨⟨xs⟩, a, r⟩, .stream ⟨⟨ys⟩, b, s⟩ => sameEntries xs ys && a == b && r == s
  | .ref a, .ref b => a == b
  | _, _ => false

/-- Equality of the items of two arrays. -/
def sameItems : List Object → List Object → Bool
  | [], [] => true
  | x :: xs, y :: ys => same x y && sameItems xs ys
  | _, _ => false

/-- Equality of the entries of two dictionaries. -/
def sameEntries : List (Name × Object) → List (Name × Object) → Bool
  | [], [] => true
  | (k, x) :: xs, (l, y) :: ys => k == l && same x y && sameEntries xs ys
  | _, _ => false

end

mutual

/-- The number of objects that an object consists of, itself included. -/
def nodes : Object → Nat
  | .array items => 1 + nodesOfItems items
  | .dict ⟨entries⟩ => 1 + nodesOfEntries entries
  | .stream ⟨⟨entries⟩, _, _⟩ => 1 + nodesOfEntries entries
  | _ => 1

/-- The number of objects in a list. -/
def nodesOfItems : List Object → Nat
  | [] => 0
  | x :: xs => nodes x + nodesOfItems xs

/-- The number of objects in a list of entries. -/
def nodesOfEntries : List (Name × Object) → Nat
  | [] => 0
  | (_, x) :: xs => nodes x + nodesOfEntries xs

end

/-- Whether the object is null. -/
def isNull : Object → Bool
  | .null => true
  | _ => false

end Object

namespace Dict

/-- The dictionary without entries. -/
def empty : Dict := ⟨[]⟩

instance : Inhabited Dict := ⟨empty⟩

instance : EmptyCollection Dict := ⟨empty⟩

/-- Puts an entry into a list of entries at the place of its key, where it replaces another. -/
def insertEntry (key : Name) (value : Object) : List (Name × Object) → List (Name × Object)
  | [] => [(key, value)]
  | (k, v) :: rest =>
    if key = k then (key, value) :: rest
    else if key < k then (key, value) :: (k, v) :: rest
    else (k, v) :: insertEntry key value rest

/-- The dictionary in which `key` has the given value. -/
def insert (d : Dict) (key : Name) (value : Object) : Dict := ⟨insertEntry key value d.entries⟩

/-- The dictionary of some entries; of several with one key the last one counts. -/
def ofList (entries : List (Name × Object)) : Dict :=
  entries.foldl (fun d (key, value) => d.insert key value) empty

/-- The value under a key in a list of entries. -/
def findEntry (key : Name) : List (Name × Object) → Option Object
  | [] => none
  | (k, v) :: rest => if key = k then some v else findEntry key rest

/-- The value under a key, as it is stored. -/
def get? (d : Dict) (key : Name) : Option Object := findEntry key d.entries

/-- The reference stored under a key. -/
def getRef? (d : Dict) (key : Name) : Option Ref :=
  match d.get? key with
  | some (.ref target) => some target
  | _ => none

/-- Whether there is an entry with a key. -/
def contains (d : Dict) (key : Name) : Bool := (d.get? key).isSome

/-- The keys in ascending order. -/
def keys (d : Dict) : List Name := d.entries.map (·.1)

/-- The number of entries. -/
def size (d : Dict) : Nat := d.entries.length

/-- Whether there are no entries. -/
def isEmpty (d : Dict) : Bool := d.entries.isEmpty

/-- Equality of dictionaries. -/
def same (d e : Dict) : Bool := Object.sameEntries d.entries e.entries

end Dict

end Folio
