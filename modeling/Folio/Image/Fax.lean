import Folio.Fax.Decode
import Folio.Image.Base

/-!
# Images in fax coding

The coded rows have the size that the parameters of the filter state, or else that of the image. Set
bits are white unless the parameters say otherwise.
-/

namespace Folio.FaxImage

/-- The truth value that an object spells. -/
def truth? : Object → Option Bool
  | .bool b => some b
  | .number n => some (n.toFloat != 0)
  | .name n => spelled n.bytes
  | .str s => spelled s.bytes
  | _ => none
where
  /-- The truth value that some letters of either case spell. -/
  spelled (letters : Bytes) : Option Bool :=
    let word := letters.toLatin1.map Char.toLower
    if word ∈ ["true", "t", "1"] then some true
    else if word ∈ ["false", "f", "0"] then some false
    else none

/-- The truth value under a key. -/
def flag? (store : Store) (d : Dict) (key : Name) : Option Bool := store.entry? truth? d key

/-- The positive number under a key, or else the given one. -/
def size (store : Store) (d : Dict) (key : Name) (default : Nat) : Nat :=
  (((store.entry? Object.uint32? d key).map UInt32.toNat).filter (0 < ·)).getD default

/-- The parameters that a filter has for an image. -/
def params (store : Store) (d : Dict) (i : BaseImage) : Fax.Params :=
  { scheme := .ofK ((store.entry? Object.int32? d "K").getD 0).toInt
    columns := size store d "Columns" i.width
    rows := size store d "Rows" i.height
    byteAligned := (flag? store d "EncodedByteAlign").getD false }

/-- Whether set bits are black. The entry may be in the dictionary of the image. -/
def blackIsSet (store : Store) (d : Dict) (i : BaseImage) : Bool :=
  ((flag? store d "BlackIs1").or (flag? store i.stream.dict "BlackIs1")).getD false

/-- The fax image that some data encodes. If it cannot be decoded by the stated scheme, the one in
which rows are coded by the rows above them is tried. -/
def decodeRows? (data : Bytes) (p : Fax.Params) : Option Fax.Image :=
  match Fax.decode data p with
  | .ok image => some image
  | .error _ => (Fax.decode data { p with scheme := .twoDimensional }).toOption

/-- The packed samples of an image. -/
def decode? (data : Bytes) (filterParams : Option Dict) (i : BaseImage) (store : Store) :
    Option Bytes := do
  let d := filterParams.getD .empty
  let p := params store d i
  let image ← decodeRows? data p
  let length := (p.columns + 7) / 8 * p.rows
  if blackIsSet store d i then some (fitTo length 0x00 image.data)
  else some (fitTo length 0xFF (image.data.map (~~~ ·)))

end Folio.FaxImage
