import Folio.Bilevel.Basic
import Folio.Bilevel.Bitmap

/-!
# Pages

A page is a bitmap on which regions are painted. The height of a page may be unknown; it then grows
with the regions and stripes on it.
-/

namespace Folio.Bilevel

/-- What is stated about a page. -/
structure PageInfo where
  width : Nat
  /-- The height, unless it is only known in the end. -/
  height : Option Nat
  /-- The color of a page without regions. -/
  background : Bool

/-- The largest number that a field of 32 bits holds. -/
def maxField : Nat := 0xFFFFFFFF

/-- The sum of two numbers, at most what a field of 32 bits holds. -/
def boundedAdd (a b : Nat) : Nat := min (a + b) maxField

/-- What the data of a page information segment states. -/
def PageInfo.read : Reader PageInfo := do
  let width ← Reader.number 4
  let height ← Reader.number 4
  let _resolution ← Reader.bytes 8
  let flags ← Reader.number 1
  let _striping ← Reader.number 2
  pure ⟨width, if height = maxField then none else some height, flags / 4 % 2 == 1⟩

/-- What is stated about a region. -/
structure RegionInfo where
  width : Nat
  height : Nat
  x : Nat
  y : Nat
  combination : Combination

/-- What the beginning of a region segment states. -/
def RegionInfo.read : Reader RegionInfo := do
  let width ← Reader.number 4
  let height ← Reader.number 4
  let x ← Reader.number 4
  let y ← Reader.number 4
  let flags ← Reader.number 1
  match Combination.ofNat? (flags % 8) with
  | none => throw .invalidRegion
  | some combination =>
    checkSize width height
    pure ⟨width, height, x, y, combination⟩

/-- A page on which regions are painted. -/
structure Page where
  info : PageInfo
  bitmap : Bitmap

namespace Page

/-- The page without regions. -/
def ofInfo (info : PageInfo) : Except Error Page := do
  let height := info.height.getD 0
  checkSize info.width height
  .ok ⟨info, .blank info.width height info.background⟩

/-- The page grown to a height, if its own is unknown. -/
def grow (p : Page) (height : Nat) : Except Error Page :=
  if p.info.height.isSome then .ok p
  else do
    checkSize p.info.width height
    .ok { p with bitmap := p.bitmap.grow height }

/-- The page with a region painted on it. -/
def paint (p : Page) (region : Bitmap) (info : RegionInfo) : Except Error Page := do
  let p ← p.grow (boundedAdd info.y region.height)
  .ok { p with bitmap := p.bitmap.paint region info.x info.y info.combination }

/-- The page after a stripe that ends with a row. -/
def endStripe (p : Page) (lastRow : Nat) : Except Error Page := p.grow (boundedAdd lastRow 1)

/-- The bitmap of the page, which must not be empty. -/
def finish (p : Page) : Except Error Bitmap :=
  if p.bitmap.height = 0 ∨ p.bitmap.width = 0 then .error .invalidRegion else .ok p.bitmap

end Page

end Folio.Bilevel
