import Folio.Proofs.Object.Dictionary

/-!
# The owner of an object's strings and streams

`Object.ownedBy` attributes all strings and streams of an object to one indirect object, those inside the
dictionary of a stream too. The keys of dictionaries, their order and which objects are null stay as they
are.
-/

namespace Folio

mutual

/-- The object in which `owner` is the owner of every string, at any depth, and of every stream. -/
def Object.ownedBy (owner : Option Ref) : Object → Object
  | .str s => .str { s with owner }
  | .array items => .array (Object.ownedItems owner items)
  | .dict ⟨entries⟩ => .dict ⟨Object.ownedEntries owner entries⟩
  | .stream ⟨⟨entries⟩, data, _⟩ => .stream ⟨⟨Object.ownedEntries owner entries⟩, data, owner⟩
  | o => o

/-- The items of an array, all with the same owner. -/
def Object.ownedItems (owner : Option Ref) : List Object → List Object
  | [] => []
  | x :: xs => Object.ownedBy owner x :: Object.ownedItems owner xs

/-- The entries of a dictionary, all with the same owner. -/
def Object.ownedEntries (owner : Option Ref) : List (Name × Object) → List (Name × Object)
  | [] => []
  | (k, x) :: xs => (k, Object.ownedBy owner x) :: Object.ownedEntries owner xs

end

/-- The dictionary with one owner for all strings and streams in it. -/
def Dict.ownedBy (owner : Option Ref) (d : Dict) : Dict := ⟨Object.ownedEntries owner d.entries⟩

namespace Object

variable {owner : Option Ref}

theorem ownedItems_eq_map (items : List Object) :
    ownedItems owner items = items.map (ownedBy owner) := by
  induction items with
  | nil => rfl
  | cons x xs ih => rw [ownedItems, ih, List.map_cons]

theorem ownedEntries_eq_map (entries : List (Name × Object)) :
    ownedEntries owner entries = entries.map fun p => (p.1, ownedBy owner p.2) := by
  induction entries with
  | nil => rfl
  | cons p entries ih =>
    obtain ⟨k, x⟩ := p
    rw [ownedEntries, ih, List.map_cons]

@[simp] theorem ownedBy_str (s : Str) : ownedBy owner (.str s) = .str { s with owner } := by
  rw [ownedBy]

@[simp] theorem ownedBy_array (items : List Object) :
    ownedBy owner (.array items) = .array (items.map (ownedBy owner)) := by
  rw [ownedBy, ownedItems_eq_map]

@[simp] theorem ownedBy_dict (d : Dict) : ownedBy owner (.dict d) = .dict (d.ownedBy owner) := by
  cases d
  rw [ownedBy, Dict.ownedBy]

@[simp] theorem ownedBy_stream (s : Stream) :
    ownedBy owner (.stream s) = .stream ⟨s.dict.ownedBy owner, s.data, owner⟩ := by
  obtain ⟨⟨entries⟩, data, reference⟩ := s
  rw [ownedBy, Dict.ownedBy]

@[simp] theorem isNull_ownedBy (o : Object) : (o.ownedBy owner).isNull = o.isNull := by
  cases o with
  | str s => rw [ownedBy_str]; rfl
  | array items => rw [ownedBy_array]; rfl
  | dict d => rw [ownedBy_dict]; rfl
  | stream s => rw [ownedBy_stream]; rfl
  | _ => rfl

end Object

namespace Dict

variable {owner : Option Ref} {d : Dict}

theorem entries_ownedBy (d : Dict) :
    (d.ownedBy owner).entries = d.entries.map fun p => (p.1, p.2.ownedBy owner) :=
  Object.ownedEntries_eq_map d.entries

theorem increasing_ownedBy (h : Increasing d.entries) : Increasing (d.ownedBy owner).entries := by
  rw [entries_ownedBy]
  exact List.pairwise_map.mpr h

theorem get?_ownedBy (d : Dict) (key : Name) :
    (d.ownedBy owner).get? key = (d.get? key).map (Object.ownedBy owner) := by
  obtain ⟨entries⟩ := d
  rw [get?, get?, entries_ownedBy]
  induction entries with
  | nil => rfl
  | cons p entries ih =>
    rw [List.map_cons, findEntry, findEntry]
    split
    · rfl
    · exact ih

end Dict

end Folio
