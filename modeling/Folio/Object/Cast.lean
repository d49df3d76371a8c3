import Folio.Object.Basic

/-!
# Reading objects as values

What an object says when a number, a name or a container is expected. Every reading fails on an
object of another kind; references are not followed. An integer is read off any number by dropping
its fraction, and fails where it lies outside the range that is asked for.
-/

namespace Folio.Object

/-- The object as a boolean. -/
def bool? : Object → Option Bool
  | .bool b => some b
  | _ => none

/-- The object as a number. -/
def number? : Object → Option Number
  | .number n => some n
  | _ => none

/-- The object as a double. -/
def float? (o : Object) : Option Float := o.number?.map Number.toFloat

/-- The object as a single. -/
def float32? (o : Object) : Option Float32 := o.number?.map Number.toFloat32

/-- The object as a signed 64-bit integer. -/
def int64? (o : Object) : Option Int64 := o.number?.map Number.toInt64

/-- The object as an integer from `low` to `high`. -/
def intWithin? (low high : Int) (o : Object) : Option Int :=
  match o.int64? with
  | some i => if low ≤ i.toInt ∧ i.toInt ≤ high then some i.toInt else none
  | none => none

/-- The object as a signed 32-bit integer. -/
def int32? (o : Object) : Option Int32 :=
  (o.intWithin? (-2147483648) 2147483647).map Int32.ofInt

/-- The object as a natural number below `bound`. -/
def natBelow? (bound : Nat) (o : Object) : Option Nat :=
  (o.intWithin? 0 (bound - 1)).map Int.toNat

/-- The object as a natural number. -/
def nat? (o : Object) : Option Nat := o.natBelow? UInt64.size

/-- The object as an unsigned 32-bit integer. -/
def uint32? (o : Object) : Option UInt32 := (o.natBelow? UInt32.size).map Nat.toUInt32

/-- The object as an unsigned 16-bit integer. -/
def uint16? (o : Object) : Option UInt16 := (o.natBelow? UInt16.size).map Nat.toUInt16

/-- The object as a byte. -/
def uint8? (o : Object) : Option UInt8 := (o.natBelow? UInt8.size).map Nat.toUInt8

/-- The object as a name. -/
def name? : Object → Option Name
  | .name n => some n
  | _ => none

/-- The object as a string. -/
def str? : Object → Option Str
  | .str s => some s
  | _ => none

/-- The object as the items of an array. -/
def array? : Object → Option (List Object)
  | .array items => some items
  | _ => none

/-- The object as a dictionary. -/
def dict? : Object → Option Dict
  | .dict d => some d
  | _ => none

/-- The object as a stream. -/
def stream? : Object → Option Stream
  | .stream s => some s
  | _ => none

/-- The object as a reference. -/
def ref? : Object → Option Ref
  | .ref r => some r
  | _ => none

/-- The object as a dictionary, also if it is the dictionary of a stream. -/
def dictLike? : Object → Option Dict
  | .dict d => some d
  | .stream s => some s.dict
  | _ => none

/-- The numbers among some objects, as singles. -/
def float32s (items : List Object) : List Float32 := items.filterMap float32?

end Folio.Object

namespace Folio.Dict

/-- The value under a key as read by `cast`; references are not followed. -/
def getAs? {α : Type} (cast : Object → Option α) (d : Dict) (key : Name) : Option α :=
  (d.get? key).bind cast

end Folio.Dict
