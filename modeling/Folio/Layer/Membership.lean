import Folio.Store.Basic

/-!
# Optional content

Content may belong to groups that are shown or hidden, like layers. A membership names one group, or
several with a policy that says when the content is visible.
-/

namespace Folio

/-- When content that belongs to several groups is visible. -/
inductive VisibilityPolicy where
  | anyOn
  | allOn
  | anyOff
  | allOff
deriving DecidableEq

namespace VisibilityPolicy

/-- The name of a policy. -/
def name : VisibilityPolicy → String
  | anyOn => "AnyOn"
  | allOn => "AllOn"
  | anyOff => "AnyOff"
  | allOff => "AllOff"

/-- The policy with a name. -/
def ofName? (n : Name) : Option VisibilityPolicy :=
  [anyOn, allOn, anyOff, allOff].find? fun p => n == .ofAscii p.name

/-- Whether content is visible, given for each of its groups whether the group is. -/
def admits : VisibilityPolicy → List Bool → Bool
  | anyOn, groups => groups.any id
  | allOn, groups => groups.all id
  | anyOff, groups => groups.any (!·)
  | allOff, groups => groups.all (!·)

end VisibilityPolicy

/-- The groups that content belongs to. -/
inductive Membership where
  | group (target : Ref)
  | groups (targets : List Ref) (policy : VisibilityPolicy)
deriving DecidableEq

namespace Membership

/-- The references among the items of an array. -/
def references (items : List Object) : List Ref := items.filterMap Object.ref?

/-- The groups that the entry of a membership dictionary lists; a reference is a single group. -/
def groupsOf (store : Store) : Option Object → List Ref
  | some (.ref target) => [target]
  | some o => references ((store.resolveAs? Object.array? o).getD [])
  | none => []

/-- The membership that an object states: a group, which must be given by reference, or a
membership dictionary. -/
def ofObject? (store : Store) (o : Object) : Option Membership := do
  let d ← store.resolveAs? Object.dict? o
  let kind ← d.getAs? Object.name? "Type"
  if kind = "OCG" then o.ref?.map group
  else if kind = "OCMD" then
    let policy := (store.entry? Object.name? d "P").bind VisibilityPolicy.ofName?
    some (groups (groupsOf store (d.get? "OCGs")) (policy.getD .anyOn))
  else none

end Membership

end Folio
