import Folio.Color.Calibrated
import Folio.Color.Cmyk
import Folio.Color.Profile
import Folio.Function

/-!
# Color spaces

A color space says what the components of a color mean. Spaces are given by names or arrays and may
be built upon others, nested at most `maxNesting` deep. Every color has a color of the screen, where
one that cannot be converted is black.
-/

namespace Folio

/-- A color space. -/
inductive ColorSpace where
  | gray
  | rgb
  | cmyk
  | calGray (s : CalGray)
  | calRgb (s : CalRgb)
  | lab (s : Lab)
  /-- Colors that are numbered up to `highest`, with their components in the base space. -/
  | indexed (base : ColorSpace) (highest : Nat) (palette : Bytes)
  /-- A profile, and the space that may stand in for it. -/
  | profile (p : Profile) (alternate : ColorSpace)
  /-- A tint of a single colorant, which the transform takes to the alternate space. -/
  | separation (colorant : Name) (alternate : ColorSpace) (transform : Option Function)
  /-- Tints of several colorants. -/
  | deviceN (colorants : List Name) (alternate : ColorSpace) (transform : Option Function)
  /-- Patterns that have colors of their own. -/
  | pattern
  /-- Patterns that are painted in a color of another space. -/
  | uncoloredPattern (base : ColorSpace)

namespace ColorSpace

/-- The name of the family that a space belongs to. -/
def family : ColorSpace → String
  | gray => "DeviceGray"
  | rgb => "DeviceRGB"
  | cmyk => "DeviceCMYK"
  | calGray _ => "CalGray"
  | calRgb _ => "CalRGB"
  | lab _ => "Lab"
  | indexed _ _ _ => "Indexed"
  | profile _ _ => "ICCBased"
  | separation _ _ _ => "Separation"
  | deviceN _ _ _ => "DeviceN"
  | pattern | uncoloredPattern _ => "Pattern"

/-- The number of components of a color. -/
def components : ColorSpace → Nat
  | gray | calGray _ | indexed _ _ _ | separation _ _ _ | pattern => 1
  | rgb | calRgb _ | lab _ => 3
  | cmyk => 4
  | profile p _ => p.components
  | deviceN colorants _ _ => colorants.length
  | uncoloredPattern base => base.components

/-- The largest number that a sample of so many bits can be, of which there are at most 16. -/
def maxSample (bits : Nat) : Float32 := (1 <<< min bits 16 - 1 : Nat).toFloat32

/-- The interval of each component that the samples of an image stand for by default. -/
def defaultDecode (s : ColorSpace) (bits : Nat) : List (Float32 × Float32) :=
  match s with
  | lab l => [(0, 100), l.rangeA, l.rangeB]
  | indexed _ _ _ => [(0, maxSample bits)]
  | s => List.replicate s.components (0, 1)

/-- The color that is current after the space has been selected. -/
def initialColor : ColorSpace → List Float32
  | cmyk => [0, 0, 0, 1]
  | profile p _ => if p.components = 4 then [0, 0, 0, 1] else List.replicate p.components 0
  | separation _ _ _ => [1]
  | deviceN colorants _ _ => List.replicate colorants.length 1
  | uncoloredPattern base => base.initialColor
  | s => List.replicate s.components 0

/-- Whether the space is that of a single colorant which is neither all nor none. -/
def isNamedColor : ColorSpace → Bool
  | separation colorant _ _ => colorant != ("All" : Name) && colorant != ("None" : Name)
  | _ => false

/-- Whether painting in the space has no effect. -/
def isNone : ColorSpace → Bool
  | separation colorant _ _ => colorant == ("None" : Name)
  | deviceN colorants _ _ => colorants.all (· == ("None" : Name))
  | _ => false

/-- Whether the colors of the space are numbered. -/
def isIndexed : ColorSpace → Bool
  | indexed _ _ _ => true
  | _ => false

/-- The color of components that are stored in one byte each, where `convert` gives the color of
components in the space. -/
def levelsWith (s : ColorSpace) (convert : List Float32 → Option Rgb) (ratio : Float32)
    (levels : Bytes) : Option Rgb :=
  match s, levels with
  | gray, [v] => some (.gray v)
  | rgb, [r, g, b] => some ⟨r, g, b⟩
  | cmyk, [c, m, y, k] => some ((Cmyk.ofLevels c m y k).toRgb ratio)
  | profile p _, levels => p.levelsToRgb? levels
  | _, levels => convert (levels.map Rgb.intensity)

/-- The gray for tints that cannot be converted: the darker, the more ink there is. -/
def tintGray (tint : Float32) : Rgb := .gray (Rgb.level (1 - tint))

/-- The components of the palette entry with an index. -/
def paletteEntry? (components highest : Nat) (palette : Bytes) (index : Float32) : Option Bytes :=
  let entry := (Single.clamp index 0 highest.toFloat32 + 0.5).toUInt64.toNat
  palette.slice? (entry * components) ((entry + 1) * components)

/-- The color of as many components as the space has. The black of inks is multiplied by `ratio`
where it is mixed with others. -/
def convert? (ratio : Float32) : ColorSpace → List Float32 → Option Rgb
  | gray, [v] => some (.gray (Rgb.level v))
  | rgb, [r, g, b] => some (.ofIntensities r g b)
  | cmyk, [c, m, y, k] => some ((⟨c, m, y, k⟩ : Cmyk).toRgb ratio)
  | calGray s, [v] => some (s.toRgb v)
  | calRgb s, [r, g, b] => some (s.toRgb r g b)
  | lab s, [l, a, b] => some (s.toRgb l a b)
  | profile p _, components => p.toRgb? components
  | indexed base highest palette, [index] =>
    match paletteEntry? base.components highest palette index with
    | some entry => base.levelsWith (convert? ratio base) ratio entry
    | none => some .black
  | separation colorant alternate transform, [tint] =>
    let transform := if colorant = ("All" : Name) then none else transform
    match transform.bind fun f => f.eval [tint] with
    | some values => convert? ratio alternate (Single.fit alternate.components values)
    | none => some (tintGray tint)
  | deviceN _ alternate transform, tints =>
    match transform.bind fun f => f.eval tints with
    | some values => convert? ratio alternate (Single.fit alternate.components values)
    | none => some (tintGray (tints.foldl (· + ·) 0 / tints.length.toFloat32))
  | uncoloredPattern base, components => convert? ratio base components
  | _, _ => none

/-- The color of components that are stored in one byte each. -/
def convertLevels? (s : ColorSpace) (ratio : Float32) (levels : Bytes) : Option Rgb :=
  s.levelsWith (s.convert? ratio) ratio levels

/-- The color of some components. Surplus components are ignored, missing ones are zero. -/
def toRgb (s : ColorSpace) (ratio : Float32) (components : List Float32) : Rgb :=
  (s.convert? ratio (Single.fit s.components components)).getD .black

/-- The space of the device with a number of components. -/
def ofComponents? : Nat → Option ColorSpace
  | 1 => some gray
  | 3 => some rgb
  | 4 => some cmyk
  | _ => none

/-- The space that a name alone stands for. -/
def ofName? (n : Name) : Option ColorSpace :=
  if n = "DeviceGray" ∨ n = "G" then some gray
  else if n = "DeviceRGB" ∨ n = "RGB" then some rgb
  else if n = "DeviceCMYK" ∨ n = "CMYK" ∨ n = "CalCMYK" then some cmyk
  else if n = "Pattern" then some pattern
  else none

/-- The space of a stream that holds a profile. If the profile cannot be used, the alternate space
takes its place, or else the space of the device with as many components. -/
def ofProfileStream? (store : Store) (s : Stream) (alternate : Option ColorSpace) :
    Option ColorSpace :=
  let stated := store.entry? Object.nat? s.dict "N"
  let profile? := do
    let components ← stated
    let data ← (s.decoded store).toOption
    Profile.parse? data components
  match profile? with
  | some p => do
    let alternate ← (alternate.filter fun a => a.components == p.components).or
      (ofComponents? p.components)
    some (profile p alternate)
  | none => alternate.or (stated.bind ofComponents?)

/-- The palette that an object holds. A string that cannot be decrypted is taken as it is. -/
def palette? (store : Store) (o : Object) : Option Bytes := do
  match ← store.resolve? o with
  | .stream s => (s.decoded store).toOption
  | .str s => some ((s.decrypted store.security).toOption.getD s.bytes)
  | _ => none

/-- The space of numbered colors that an array describes, given the base space. -/
def ofIndexedArray? (store : Store) (items : List Object) (base : ColorSpace) :
    Option ColorSpace := do
  let highest ← store.item? Object.int64? items 2
  let palette ← items[3]?.bind (palette? store)
  some (indexed base (min highest.toInt.toNat 255) palette)

/-- The function at an index of an array. -/
def transform? (store : Store) (items : List Object) : Option Function :=
  items[3]?.bind (Function.ofObject? store)

/-- The space that the items of an array describe, where `nested` reads spaces within it. -/
def ofItems? (store : Store) (nested : Object → Option ColorSpace) (items : List Object) :
    Option ColorSpace := do
  let kind ← store.item? Object.name? items 0
  let dict := (store.item? Object.dict? items 1).getD .empty
  if kind = "Pattern" then some ((items[1]?.bind nested).elim pattern uncoloredPattern)
  else if let some s := ofName? kind then some s
  else if kind = "CalGray" then some (calGray (.ofDict dict))
  else if kind = "CalRGB" then some (calRgb (.ofDict dict))
  else if kind = "Lab" then some (lab (.ofDict dict))
  else if kind = "ICCBased" then
    let s ← store.item? Object.stream? items 1
    ofProfileStream? store s ((s.dict.get? "Alternate").bind nested)
  else if kind = "Indexed" ∨ kind = "I" then
    let base ← items[1]?.bind nested
    ofIndexedArray? store items base
  else if kind = "Separation" then
    let colorant ← store.item? Object.name? items 1
    let alternate ← items[2]?.bind nested
    some (separation colorant alternate (transform? store items))
  else if kind = "DeviceN" then
    let colorants := (← store.item? Object.array? items 1).filterMap (store.resolveAs? Object.name?)
    guard (colorants ≠ [])
    let alternate ← items[2]?.bind nested
    some (deviceN colorants alternate (transform? store items))
  else none

/-- The largest number of spaces that are nested in each other. -/
def maxNesting : Nat := 9

/-- The space that an object describes, if at most `levels` are nested in each other. -/
def ofObjectWithin? (store : Store) : Nat → Object → Option ColorSpace
  | 0, _ => none
  | levels + 1, o => do
    match ← store.resolve? o with
    | .name n => ofName? n
    | .array items => ofItems? store (ofObjectWithin? store levels) items
    | _ => none

/-- The space that an object describes. A name must be one that stands for a space by itself. -/
def ofObject? (store : Store) (o : Object) : Option ColorSpace := ofObjectWithin? store maxNesting o

end ColorSpace

end Folio
