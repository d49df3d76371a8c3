import Folio.Layer.Membership

/-!
# Visibility of optional content

The catalog of a document states which groups are hidden at first. While content is drawn, a stack
says whether what is drawn now is visible: content inside hidden content is hidden.
-/

namespace Folio

/-- Which groups of a document are hidden. -/
structure Visibility where
  hidden : List Ref

namespace Visibility

/-- All groups are visible. -/
def all : Visibility := ⟨[]⟩

/-- Whether no group is hidden. -/
def isAll (v : Visibility) : Bool := v.hidden.isEmpty

/-- Whether a group is visible. -/
def showsGroup (v : Visibility) (group : Ref) : Bool := !v.hidden.contains group

/-- With a group hidden. -/
def hide (v : Visibility) (group : Ref) : Visibility :=
  if v.showsGroup group then ⟨group :: v.hidden⟩ else v

/-- With a group shown. -/
def unhide (v : Visibility) (group : Ref) : Visibility := ⟨v.hidden.filter (· ≠ group)⟩

/-- With a group shown or hidden. -/
def set (v : Visibility) (group : Ref) (visible : Bool) : Visibility :=
  if visible then v.unhide group else v.hide group

/-- Whether content with a membership is visible. Content that belongs to no group is. -/
def shows (v : Visibility) : Membership → Bool
  | .group target => v.showsGroup target
  | .groups targets policy => targets.isEmpty || policy.admits (targets.map v.showsGroup)

/-- The references in the array under a key. -/
def listed (store : Store) (d : Dict) (key : Name) : List Ref :=
  Membership.references ((store.entry? Object.array? d key).getD [])

/-- The visibility that a catalog states: a base state, then groups that are on, then groups that
are off. -/
def ofCatalog (catalog : Dict) (store : Store) : Visibility :=
  let stated := do
    let properties ← store.dict? catalog "OCProperties"
    let config ← store.dict? properties "D"
    some (properties, config)
  match stated with
  | none => all
  | some (properties, config) =>
    let base := store.entry? Object.name? config "BaseState"
    let off := if base = some ("OFF" : Name) then listed store properties "OCGs" else []
    let v := off.foldl hide all
    let v := (listed store config "ON").foldl unhide v
    (listed store config "OFF").foldl hide v

end Visibility

/-- Whether what is drawn now is visible, and whether it was before each enclosing content began. -/
structure LayerStack where
  levels : List Bool := []

namespace LayerStack

/-- Whether what is drawn now is visible. -/
def isVisible (s : LayerStack) : Bool := s.levels.headD true

/-- The number of memberships that enclose what is drawn now. -/
def depth (s : LayerStack) : Nat := s.levels.length

/-- Content with a membership begins. -/
def push (s : LayerStack) (m : Membership) (v : Visibility) : LayerStack :=
  ⟨(s.isVisible && v.shows m) :: s.levels⟩

/-- The innermost content ends. -/
def pop (s : LayerStack) : LayerStack := ⟨s.levels.tail⟩

end LayerStack

end Folio
