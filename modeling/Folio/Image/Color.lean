import Folio.Image.Base

/-!
# Colors of packed samples

Samples become colors through the decode maps and the color space. Levels that are stored in one
byte each and decoded as they are need no conversion.
-/

namespace Folio.BaseImage

/-- The gray of a sample of some bits, which is spread over all eight bits of a level. -/
def spreadGray (bits sample : Nat) : Rgb :=
  let highest := 1 <<< bits - 1
  .gray ((sample * 255 + highest / 2) / highest).toUInt8

/-- The color of a sample in a space of one component. -/
def sampleColor (space : ColorSpace) (map : DecodeMap) (bits : Nat) (ratio : Float32)
    (sample : Nat) : Rgb :=
  match space, map.isIdentity bits, map.isInverted bits with
  | .gray, true, _ => spreadGray bits sample
  | .gray, _, true => spreadGray bits (1 <<< bits - 1 - sample)
  | space, _, _ => space.toRgb ratio [map.apply sample]

/-- The colors of pixels whose samples are levels. Missing pixels are black. -/
def levelColors? (i : BaseImage) (maps : List DecodeMap) (bits : Nat) (ratio : Float32)
    (data : Bytes) : Option (List Rgb) :=
  if bits = 8 ∧ maps.all (·.isIdentity bits) then
    match i.space with
    | .rgb =>
      let levels := fitTo (3 * i.size) 0 data
      some ((Bytes.exactBlocks 3 levels).map fun
        | [r, g, b] => ⟨r, g, b⟩
        | _ => .black)
    | .cmyk => some (fitTo i.size .black ((Bytes.exactBlocks 4 data).map fun
        | [c, m, y, k] => (Cmyk.ofLevels c m y k).toRgb ratio
        | _ => .black))
    | _ => none
  else none

/-- The lists of `count` consecutive items, at most `fuel` of them. -/
def groups (count : Nat) : Nat → List Nat → List (List Nat)
  | 0, _ => []
  | fuel + 1, items => items.take count :: groups count fuel (items.drop count)

/-- The colors of samples in a space of several components. If one cannot be converted, all are
white. -/
def groupColors (i : BaseImage) (maps : List DecodeMap) (ratio : Float32) (samples : List Nat) :
    List Rgb :=
  let values (pixel : List Nat) : List Float32 := List.zipWith DecodeMap.apply maps pixel
  let converted := (groups i.space.components i.size samples).mapM fun pixel =>
    i.space.convert? ratio (values pixel)
  converted.getD (List.replicate i.size .white)

/-- The colors of an image whose samples of some bits are packed in data. -/
def packedColors (i : BaseImage) (bits : Nat) (ratio : Float32) (data : Bytes) : List Rgb :=
  let maps := i.decodeFor bits
  match i.levelColors? maps bits ratio data with
  | some colors => colors
  | none =>
    let samples := Sample.unpack bits (i.width * i.space.components) i.height data
    match maps with
    | [map] => if bits ≤ 8 then samples.map (sampleColor i.space map bits ratio)
      else i.groupColors maps ratio samples
    | maps => i.groupColors maps ratio samples

end Folio.BaseImage
