import Folio.Bilevel.Decode
import Folio.Image.Base

/-!
# Bilevel images

The page may have another size than the image. Set bits are white.
-/

namespace Folio.BilevelImage

/-- The segments that the parameters of the filter refer to. -/
def globals? (filterParams : Option Dict) (store : Store) : Option Bytes := do
  let d ← filterParams
  let s ← store.entry? Object.stream? d "JBIG2Globals"
  (s.decoded store).toOption

/-- A row of a page as samples of an image of another width. -/
def packRow (page : Bilevel.Bitmap) (width y : Nat) : Bytes :=
  Bits.pack ((List.range ((width + 7) / 8 * 8)).map fun x => !(x < width && page.get x y))

/-- The packed samples of an image that shows a page. -/
def pack (page : Bilevel.Bitmap) (i : BaseImage) : Bytes :=
  let rows :=
    if page.width = i.width then page.pack.map (~~~ ·)
    else (List.range (min i.height page.height)).flatMap (packRow page i.width)
  fitTo ((i.width + 7) / 8 * i.height) 0xFF rows

/-- The packed samples of an image. -/
def decode? (data : Bytes) (filterParams : Option Dict) (i : BaseImage) (store : Store) :
    Option Bytes :=
  (Bilevel.decodeEmbedded data (globals? filterParams store)).toOption.map fun page => pack page i

end Folio.BilevelImage
