import Folio.Color.Space

/-!
# Resources

The resources of a page or a form are dictionaries of named objects. A form has the resources of its
surroundings behind its own: a name is looked up in the innermost dictionary first.
-/

namespace Folio

/-- The named resources of one page or form. -/
structure ResourceScope where
  colorSpaces : Dict
  xObjects : Dict
  graphicsStates : Dict
  properties : Dict

/-- The resources that are in effect, and the store that they refer to. -/
structure Resources where
  store : Store
  innermost : ResourceScope
  /-- The resources of the surroundings, from the inside out. -/
  outer : List ResourceScope := []

namespace ResourceScope

/-- The resources that a dictionary lists. -/
def ofDict (store : Store) (d : Dict) : ResourceScope :=
  let part (key : Name) : Dict := (store.entry? Object.dict? d key).getD .empty
  ⟨part "ColorSpace", part "XObject", part "ExtGState", part "Properties"⟩

end ResourceScope

namespace Resources

/-- The resources of a page. -/
def ofDict (store : Store) (d : Dict) : Resources := ⟨store, .ofDict store d, []⟩

/-- The resources of a form within others. -/
def nest (r : Resources) (d : Dict) : Resources :=
  ⟨r.store, .ofDict r.store d, r.innermost :: r.outer⟩

/-- Whether there are resources of surroundings. -/
def isNested (r : Resources) : Bool := !r.outer.isEmpty

/-- All scopes, from the inside out. -/
def scopes (r : Resources) : List ResourceScope := r.innermost :: r.outer

/-- The object that a color space name stands for. -/
def colorSpaceObject? (r : Resources) (n : Name) : Option Object :=
  r.scopes.findSome? fun s => (s.colorSpaces.get? n).bind r.store.resolve?

/-- The stream of an external object. -/
def xObject? (r : Resources) (n : Name) : Option Stream :=
  r.scopes.findSome? fun s => r.store.entry? Object.stream? s.xObjects n

/-- The parameters of a graphics state. -/
def graphicsState? (r : Resources) (n : Name) : Option Dict :=
  r.scopes.findSome? fun s => r.store.entry? Object.dict? s.graphicsStates n

/-- The properties with a name, as they are stored. -/
def property? (r : Resources) (n : Name) : Option Object :=
  r.scopes.findSome? fun s => s.properties.get? n

/-- The color space that an object describes, where it may be the name of a resource. -/
def colorSpace? (r : Resources) (o : Object) : Option ColorSpace :=
  match o with
  | .name n =>
    match ColorSpace.ofName? n with
    | some s => some s
    | none => (r.colorSpaceObject? n).bind (ColorSpace.ofObject? r.store)
  | o => ColorSpace.ofObject? r.store o

end Resources

end Folio
