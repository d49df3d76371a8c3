import Folio.Image.Object

/-!
# The gallery

The images that content streams draw are numbered as they are met. An image that is an indirect
object keeps its number, and what it was decoded to is used wherever it is drawn.
-/

namespace Folio

/-- The images met so far. -/
structure Gallery where
  images : Array ImageObject := #[]
  /-- The numbers of the images that are indirect objects. -/
  shared : List (Ref × Nat) := []

namespace Gallery

/-- The number of a new image, and the gallery with it. -/
def add (g : Gallery) (s : Stream) : Nat × Gallery :=
  (g.images.size, { g with images := g.images.push { stream := s } })

/-- The number of an image, which is new unless it is an indirect object met before, and the gallery
with it. -/
def place (g : Gallery) (s : Stream) : Nat × Gallery :=
  match s.reference with
  | none => g.add s
  | some target =>
    match g.shared.lookup target with
    | some number => (number, g)
    | none =>
      let (number, g) := g.add s
      (number, { g with shared := (target, number) :: g.shared })

/-- The stream of the image with a number. -/
def stream? (g : Gallery) (number : Nat) : Option Stream := g.images[number]?.map (·.stream)

/-- The number of images that are indirect objects. -/
def sharedCount (g : Gallery) : Nat := g.shared.length

/-- The decoded image with a number, and the gallery afterwards. -/
def draw (g : Gallery) (number : Nat) (fill : Rgb) (r : Resources) (config : ImageConfig) :
    Option Raster × Gallery :=
  match g.images[number]? with
  | none => (none, g)
  | some image =>
    let (raster, image) := image.draw fill r config
    (raster, { g with images := g.images.setIfInBounds number image })

end Gallery

end Folio
