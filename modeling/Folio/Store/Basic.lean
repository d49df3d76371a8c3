import Folio.Object.Cast
import Folio.Security.Basic

/-!
# The object store

A document is a store of indirect objects, each under its reference. References are resolved
through the store, along chains of at most `maxChain` steps. An object that enters the store is
adopted: its strings and streams are attributed to it unless they have an owner.
-/

namespace Folio

mutual

/-- The object with all strings and streams that have no owner attributed to one. What lies inside
a stream's dictionary stays as it is. -/
def Object.adopt (owner : Ref) : Object → Object
  | .str s => .str (if s.owner.isNone then s.withOwner owner else s)
  | .array items => .array (Object.adoptItems owner items)
  | .dict ⟨entries⟩ => .dict ⟨Object.adoptEntries owner entries⟩
  | .stream s => .stream (if s.reference.isNone then { s with reference := some owner } else s)
  | o => o

/-- The items of an array, adopted. -/
def Object.adoptItems (owner : Ref) : List Object → List Object
  | [] => []
  | x :: xs => Object.adopt owner x :: Object.adoptItems owner xs

/-- The entries of a dictionary, adopted. -/
def Object.adoptEntries (owner : Ref) : List (Name × Object) → List (Name × Object)
  | [] => []
  | (k, x) :: xs => (k, Object.adopt owner x) :: Object.adoptEntries owner xs

end

/-- The indirect objects of a document, one for each reference, and what decrypts them. -/
structure Store where
  objects : List (Ref × Object) := []
  security : Option Security.Manager := none

namespace Store

/-- The store without objects. -/
def empty : Store := {}

instance : Inhabited Store := ⟨empty⟩

/-- The object under a reference in a list. -/
def findObject (target : Ref) : List (Ref × Object) → Option Object
  | [] => none
  | (r, o) :: rest => if target = r then some o else findObject target rest

/-- Puts an object under a reference into a list, in the place of an earlier one. -/
def putObject (target : Ref) (o : Object) : List (Ref × Object) → List (Ref × Object)
  | [] => [(target, o)]
  | (r, p) :: rest => if target = r then (target, o) :: rest else (r, p) :: putObject target o rest

/-- The object under a reference; further references are not followed. -/
def get? (s : Store) (target : Ref) : Option Object := findObject target s.objects

/-- The store with an object put under a reference as it is. -/
def put (s : Store) (target : Ref) (o : Object) : Store :=
  { s with objects := putObject target o s.objects }

/-- The store with an object adopted and put under a reference. -/
def insert (s : Store) (target : Ref) (o : Object) : Store := s.put target (o.adopt target)

/-- The store of an encrypted document. -/
def withSecurity (s : Store) (security : Security.Manager) : Store :=
  { s with security := some security }

/-- The number of objects. -/
def size (s : Store) : Nat := s.objects.length

/-- Whether there are no objects. -/
def isEmpty (s : Store) : Bool := s.objects.isEmpty

/-- The number of steps in which a reference must lead to a direct object. -/
def maxChain : Nat := 32

/-- The direct object reached from an object in fewer than `steps` steps. -/
def follow? (s : Store) : Nat → Object → Option Object
  | 0, _ => none
  | steps + 1, .ref target => (s.get? target).bind (s.follow? steps)
  | _ + 1, o => some o

/-- The direct object that an object stands for. -/
def resolve? (s : Store) (o : Object) : Option Object := s.follow? maxChain o

/-- The direct object that an object stands for, as read by `cast`. -/
def resolveAs? {α : Type} (s : Store) (cast : Object → Option α) (o : Object) : Option α :=
  (s.resolve? o).bind cast

/-- The value under a key of a dictionary, resolved and as read by `cast`. -/
def entry? {α : Type} (s : Store) (cast : Object → Option α) (d : Dict) (key : Name) : Option α :=
  (d.get? key).bind (s.resolveAs? cast)

/-- The item of an array at an index, resolved and as read by `cast`. -/
def item? {α : Type} (s : Store) (cast : Object → Option α) (items : List Object) (index : Nat) :
    Option α :=
  items[index]?.bind (s.resolveAs? cast)

/-- The dictionary under a key, which may be that of a stream. -/
def dict? (s : Store) (d : Dict) (key : Name) : Option Dict := s.entry? Object.dictLike? d key

/-- The number of objects that the store consists of, those inside others included. -/
def nodes (s : Store) : Nat := s.objects.foldl (fun count (_, o) => count + o.nodes) 0

end Store

end Folio
