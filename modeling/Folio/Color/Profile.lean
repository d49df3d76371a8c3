import Folio.Color.Calibrated

/-!
# Color profiles

A profile relates the components of a color to light by a tone curve for each of them. Its primaries
are taken to be those of the screen. A profile is used if it is for grays and one component, or for
red, green and blue and three or four components, the fourth of which does not count.
-/

namespace Folio

/-- A relation of a component to light. -/
inductive ToneCurve where
  /-- From `start` on the curve is a power of `scale * x + shift`, to which `offset` is added;
  before it is `slope * x + base`. -/
  | power (exponent scale shift start offset slope base : Float32)
  /-- The curve joins values at even distances. -/
  | table (values : Array Float32)

namespace ToneCurve

/-- The power with an exponent. -/
def ofExponent (exponent : Float32) : ToneCurve := power exponent 1 0 0 0 0 0

/-- The light of a component. -/
def eval : ToneCurve → Float32 → Float32
  | power exponent scale shift start offset slope base, x =>
    if x ≥ start then (scale * x + shift).pow exponent + offset else slope * x + base
  | table values, x =>
    let place := x * (values.size - 1).toFloat32
    let low := place.floor.toUInt64.toNat
    let first := values.getD low 0
    first + (values.getD (low + 1) first - first) * (place - place.floor)

/-- The number that four bytes stand for, in units of 1/65536. -/
def fixedNumber (bytes : Bytes) : Float32 :=
  (Float.ofInt bytes.toNatBE.toUInt32.toInt32.toInt / 65536).toFloat32

/-- The curve with the parameters of one of five forms. -/
def ofParameters? : Nat → List Float32 → Option ToneCurve
  | 0, g :: _ => some (ofExponent g)
  | 1, g :: a :: b :: _ => some (power g a b (-b / a) 0 0 0)
  | 2, g :: a :: b :: c :: _ => some (power g a b (-b / a) c 0 c)
  | 3, g :: a :: b :: c :: d :: _ => some (power g a b d 0 c 0)
  | 4, g :: a :: b :: c :: d :: e :: f :: _ => some (power g a b d e c f)
  | _, _ => none

/-- The curve that the element of a profile holds. -/
def parse? (element : Bytes) : Option ToneCurve := do
  let (kind, rest) ← Bytes.splitAt? element 8
  if kind.take 4 = Bytes.ofAscii "para" then
    let (form, rest) ← Bytes.splitAt? rest 4
    ofParameters? (Bytes.toNatBE (form.take 2)) ((Bytes.exactBlocks 4 rest).map fixedNumber)
  else if kind.take 4 = Bytes.ofAscii "curv" then
    let (count, rest) ← Bytes.splitAt? rest 4
    let (values, _) ← Bytes.splitAt? rest (2 * count.toNatBE)
    match Bytes.exactBlocks 2 values with
    | [] => some (ofExponent 1)
    | [exponent] => some (ofExponent (exponent.toNatBE.toFloat32 / 256))
    | values => some (table (values.map fun v => v.toNatBE.toFloat32 / 65535).toArray)
  else none

end ToneCurve

/-- What a profile says about its components. -/
inductive ProfileCurves where
  | gray (curve : ToneCurve)
  | rgb (red green blue : ToneCurve)

/-- A color profile. -/
structure Profile where
  /-- The number of components of its colors. -/
  components : Nat
  curves : ProfileCurves
  /-- Whether the profile is that of the screen, so that levels stay what they are. -/
  isOfScreen : Bool

namespace Profile

/-- The element of a profile that has a signature. -/
def element? (data : Bytes) (signature : String) : Option Bytes := do
  let (count, entries) ← Bytes.splitAt? (data.drop 128) 4
  let (entries, _) ← Bytes.splitAt? entries (12 * count.toNatBE)
  let entry ← (Bytes.exactBlocks 12 entries).find? fun e => e.take 4 = Bytes.ofAscii signature
  let start := Bytes.toNatBE ((entry.drop 4).take 4)
  data.slice? start (start + Bytes.toNatBE (entry.drop 8))

/-- The tone curve in the element that has a signature. -/
def curve? (data : Bytes) (signature : String) : Option ToneCurve :=
  (element? data signature).bind ToneCurve.parse?

/-- The curves of a profile for a number of components. -/
def curves? (data : Bytes) (components : Nat) : Option ProfileCurves := do
  let space ← data.slice? 16 20
  if components = 1 ∧ space = .ofAscii "GRAY" then
    let gray ← curve? data "kTRC"
    some (.gray gray)
  else if components ∈ [3, 4] ∧ space = .ofAscii "RGB " then
    let red ← curve? data "rTRC"
    let green ← curve? data "gTRC"
    let blue ← curve? data "bTRC"
    some (.rgb red green blue)
  else none

/-- The profile that some data encodes, for a number of components. -/
def parse? (data : Bytes) (components : Nat) : Option Profile := do
  guard (data.slice? 36 40 = some (.ofAscii "acsp"))
  let curves ← curves? data components
  some ⟨components, curves, components = 3 ∧ data.slice? 52 56 = some (.ofAscii "sRGB")⟩

/-- The intensity on the screen of a component with a tone curve. -/
def intensity (curve : ToneCurve) (component : Float32) : Float32 :=
  Calibration.encode (curve.eval (Single.clamp component 0 1))

/-- The color of some components. -/
def toRgb? (p : Profile) (components : List Float32) : Option Rgb :=
  match p.curves, components with
  | .gray curve, v :: _ => some (.gray (Rgb.level (intensity curve v)))
  | .rgb red green blue, r :: g :: b :: _ =>
    some (.ofIntensities (intensity red r) (intensity green g) (intensity blue b))
  | _, _ => none

/-- The color of components that are stored in one byte each. -/
def levelsToRgb? (p : Profile) (levels : Bytes) : Option Rgb :=
  match p.isOfScreen, levels with
  | true, [r, g, b] => some ⟨r, g, b⟩
  | _, levels => p.toRgb? (levels.map Rgb.intensity)

end Profile

end Folio
