import Folio.Bits

/-!
# Bitmaps

A bitmap is a rectangle of black and white pixels. It is packed with one bit for each pixel; rows
begin at whole bytes and are completed with the bitmap's color of growth.
-/

namespace Folio.Bilevel

/-- How the pixels of a region are combined with those below it. -/
inductive Combination where
  | or
  | and
  | xor
  | xnor
  | replace
deriving DecidableEq

namespace Combination

/-- The combination with a number. -/
def ofNat? : Nat → Option Combination
  | 0 => some or
  | 1 => some and
  | 2 => some xor
  | 3 => some xnor
  | 4 => some replace
  | _ => none

/-- The color that results from the color below and that of the region. -/
def apply (c : Combination) (below above : Bool) : Bool :=
  match c with
  | or => below || above
  | and => below && above
  | xor => below != above
  | xnor => below == above
  | replace => above

end Combination

/-- A rectangle of pixels, row after row, true for black. -/
structure Bitmap where
  width : Nat
  height : Nat
  pixels : Array Bool
  /-- The color of rows that are added and of the bits after the end of a row. -/
  background : Bool := false

namespace Bitmap

/-- The bitmap all of whose pixels have the background color. -/
def blank (width height : Nat) (background : Bool) : Bitmap :=
  ⟨width, height, Array.replicate (width * height) background, background⟩

/-- The bitmap whose pixels a function of their positions gives. -/
def ofFn (width height : Nat) (background : Bool) (color : Nat → Nat → Bool) : Bitmap :=
  let pixels := (List.range (width * height)).map fun i => color (i % width) (i / width)
  ⟨width, height, pixels.toArray, background⟩

/-- Whether a pixel is black. Outside of the bitmap all is white. -/
def get (b : Bitmap) (x y : Int) : Bool :=
  if 0 ≤ x ∧ 0 ≤ y ∧ x < b.width ∧ y < b.height then
    b.pixels.getD (y.toNat * b.width + x.toNat) false
  else false

/-- The bitmap with one more pixel after its last one. -/
def push (b : Bitmap) (black : Bool) : Bitmap := { b with pixels := b.pixels.push black }

/-- The bitmap with rows of the background color added up to a height. -/
def grow (b : Bitmap) (height : Nat) : Bitmap :=
  if b.height < height then
    let added := Array.replicate (b.width * (height - b.height)) b.background
    { b with height, pixels := b.pixels ++ added }
  else b

/-- The bitmap with a region placed on it with its top left corner at a position. -/
def paint (b region : Bitmap) (x y : Nat) (c : Combination) : Bitmap :=
  ofFn b.width b.height b.background fun px py =>
    if x ≤ px ∧ px < x + region.width ∧ y ≤ py ∧ py < y + region.height then
      c.apply (b.get px py) (region.get ((px : Int) - x) ((py : Int) - y))
    else b.get px py

/-- The number of bytes of a packed row. -/
def stride (b : Bitmap) : Nat := (b.width + 7) / 8

/-- The pixels of a row, completed to whole bytes. -/
def rowBits (b : Bitmap) (y : Nat) : List Bool :=
  (List.range (b.stride * 8)).map fun x => if x < b.width then b.get x y else b.background

/-- The packed rows. -/
def pack (b : Bitmap) : Bytes := (List.range b.height).flatMap fun y => Bits.pack (b.rowBits y)

end Bitmap

end Folio.Bilevel
