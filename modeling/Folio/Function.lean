import Folio.Bits
import Folio.Single
import Folio.Store.Stream

/-!
# Functions

A function of a document maps lists of numbers to lists of numbers. It interpolates in a table of
samples, raises to a power, or selects another function by its argument. Arguments are clamped to a
domain, results to a range if there is one.
-/

namespace Folio

/-- The intervals that the arguments and the results of a function are clamped to. -/
structure FunctionLimits where
  domain : List (Float32 × Float32)
  range : Option (List (Float32 × Float32))

namespace FunctionLimits

/-- The intervals that an array under a key states. -/
def intervals? (d : Dict) (key : Name) : Option (List (Float32 × Float32)) :=
  (d.getAs? Object.array? key).map fun items => Single.pairs (Object.float32s items)

/-- The limits that a dictionary states. -/
def ofDict? (d : Dict) : Option FunctionLimits :=
  (intervals? d "Domain").map fun domain => ⟨domain, intervals? d "Range"⟩

/-- Clamps each number to the interval at its place, if there is one. -/
def clampAll : List (Float32 × Float32) → List Float32 → List Float32
  | interval :: intervals, x :: xs => Single.clampTo interval x :: clampAll intervals xs
  | _, xs => xs

/-- The arguments, clamped. -/
def arguments (l : FunctionLimits) (xs : List Float32) : List Float32 := clampAll l.domain xs

/-- The results, clamped. -/
def results (l : FunctionLimits) (xs : List Float32) : List Float32 := clampAll (l.range.getD []) xs

end FunctionLimits

/-- A table of samples on a grid with one dimension for each argument. -/
structure SampledFunction where
  limits : FunctionLimits
  /-- The intervals of the results. -/
  range : List (Float32 × Float32)
  /-- The number of grid points along each dimension. -/
  sizes : List Nat
  /-- The intervals of the grid that the domain is mapped to. -/
  encode : List (Float32 × Float32)
  /-- The intervals that the samples are mapped to. -/
  decode : List (Float32 × Float32)
  maxSample : Float32
  /-- The samples, those along the first dimension being next to each other. Missing ones are
  zero. -/
  samples : Array Nat

namespace SampledFunction

/-- The largest number of arguments. -/
def maxArguments : Nat := 8

/-- The numbers of bits that a sample may have. -/
def sampleWidths : List Nat := [1, 2, 4, 8, 12, 16, 24, 32]

/-- The table that a dictionary and the data of a stream describe. -/
def ofDict? (d : Dict) (data : Bytes) : Option SampledFunction := do
  let width := (← d.getAs? Object.uint8? "BitsPerSample").toNat
  guard (width ∈ sampleWidths)
  let limits ← FunctionLimits.ofDict? d
  let range ← limits.range
  let sizes := ((← d.getAs? Object.array? "Size").filterMap Object.uint32?).map UInt32.toNat
  guard (0 < sizes.length ∧ sizes.length ≤ maxArguments ∧ sizes.length = limits.domain.length)
  guard (range ≠ [] ∧ 0 ∉ sizes)
  let count := sizes.foldl (· * ·) range.length
  guard (count < UInt64.size)
  some
    { limits, range, sizes
      encode := (FunctionLimits.intervals? d "Encode").getD
        (sizes.map fun size => (0, (size - 1).toFloat32))
      decode := (FunctionLimits.intervals? d "Decode").getD range
      maxSample := (1 <<< width - 1 : Nat).toFloat32
      samples := (Bits.numbers width count (Bits.ofBytes data)).toArray }

/-- A place between two neighboring grid points along one dimension. -/
structure Place where
  /-- The lower grid point. -/
  floor : Nat
  /-- How far the place is from the lower to the upper grid point. -/
  fraction : Float32
  /-- The distance in the table between neighbors along the dimension. -/
  stride : Nat
  /-- The last grid point of the dimension. -/
  last : Nat

/-- The places of arguments on the grid, where `stride` belongs to the first dimension. -/
def places : Nat → List Float32 → List (Float32 × Float32) → List (Float32 × Float32) →
    List Nat → List Place
  | stride, x :: xs, domain :: domains, encode, size :: sizes =>
    let onGrid := Single.interpolate x domain (encode.headD (0, 0))
    let onGrid := Single.clamp onGrid 0 (size - 1).toFloat32
    let place : Place :=
      { floor := onGrid.floor.toUInt64.toNat
        fraction := onGrid - onGrid.floor
        stride
        last := size - 1 }
    place :: places (stride * size) xs domains encode.tail sizes
  | _, _, _, _, _ => []

/-- The corners of a cell along one more dimension: each splits into a lower and an upper one. A
corner is its weight and its index in the table. -/
def splitCorners (corners : List (Float32 × Nat)) (p : Place) : List (Float32 × Nat) :=
  corners.map (fun (weight, index) => (weight * (1 - p.fraction), index + p.floor * p.stride)) ++
    corners.map fun (weight, index) =>
      (weight * p.fraction, index + min (p.floor + 1) p.last * p.stride)

/-- The sum of the samples of one result at the corners of a cell, by their weights. -/
def blend (f : SampledFunction) (corners : List (Float32 × Nat)) (result : Nat) : Float32 :=
  corners.foldl (fun (sum : Float32) (weight, index) =>
    if weight == 0 then sum
    else sum + weight * (f.samples.getD (index + result) 0).toFloat32) 0

/-- The results for some arguments: samples are interpolated linearly along each dimension. -/
def eval (f : SampledFunction) (xs : List Float32) : Option (List Float32) :=
  if xs.length = f.sizes.length then
    let xs := f.limits.arguments xs
    let corners := (places f.range.length xs f.limits.domain f.encode f.sizes).foldl
      splitCorners [(1, 0)]
    let blended := f.range.mapIdx fun result interval =>
      Single.interpolate (f.blend corners result) (0, f.maxSample)
        (f.decode[result]?.getD interval)
    some (f.limits.results blended)
  else none

end SampledFunction

/-- A power that is mapped linearly to each result. -/
structure PowerFunction where
  limits : FunctionLimits
  /-- The results for zero and for one. -/
  ends : List (Float32 × Float32)
  exponent : Float32

namespace PowerFunction

/-- The results under a key. -/
def ends? (d : Dict) (key : Name) : Option (List Float32) :=
  (d.getAs? Object.array? key).map Object.float32s

/-- The function that a dictionary describes. -/
def ofDict? (d : Dict) : Option PowerFunction := do
  let limits ← FunctionLimits.ofDict? d
  let zero := (ends? d "C0").getD [0]
  let one := (ends? d "C1").getD [1]
  let exponent ← d.getAs? Object.float32? "N"
  guard (zero.length = one.length)
  some ⟨limits, zero.zip one, exponent⟩

/-- The results for an argument. -/
def eval (f : PowerFunction) (xs : List Float32) : Option (List Float32) :=
  (f.limits.arguments (xs.take 1)).head?.map fun x =>
    let power := x.pow f.exponent
    f.limits.results (f.ends.map fun (zero, one) => zero + power * (one - zero))

end PowerFunction

/-- A function of a document. -/
inductive Function where
  | sampled (table : SampledFunction)
  | power (f : PowerFunction)
  /-- The bounds divide the domain into one part for each function. -/
  | stitched (limits : FunctionLimits) (parts : List Function) (bounds : List Float32)
    (encode : List (Float32 × Float32))

namespace Function

/-- The part of a domain that an argument lies in: its index and its interval. -/
def partOf (domain : Float32 × Float32) (bounds : List Float32) (x : Float32) :
    Nat × (Float32 × Float32) :=
  let index := bounds.findIdx (x < ·)
  let low := if index = 0 then domain.1 else bounds.getD (index - 1) domain.1
  (index, (low, bounds.getD index domain.2))

mutual

/-- The results of a function for some arguments. -/
def eval : Function → List Float32 → Option (List Float32)
  | .sampled f, xs => f.eval xs
  | .power f, xs => f.eval xs
  | .stitched limits parts bounds encode, xs => do
    let domain ← limits.domain.head?
    let x := Single.clampTo domain (← xs.head?)
    let (index, part) := partOf domain bounds x
    let target ← encode[index]?
    let results ← evalPart parts index [Single.interpolate x part target]
    some (limits.results results)

/-- The results of the function at an index. -/
def evalPart : List Function → Nat → List Float32 → Option (List Float32)
  | [], _, _ => none
  | f :: _, 0, xs => eval f xs
  | _ :: parts, index + 1, xs => evalPart parts index xs

end

/-- The largest number of functions that are nested in each other. -/
def maxNesting : Nat := 9

/-- The function that selects one of some parts, as a dictionary describes it. -/
def stitch? (d : Dict) (store : Store) (parts : List Function) : Option Function := do
  let limits ← FunctionLimits.ofDict? d
  let bounds := Object.float32s (← store.entry? Object.array? d "Bounds")
  let encode := Single.pairs (Object.float32s (← store.entry? Object.array? d "Encode"))
  guard (parts ≠ [] ∧ bounds.length + 1 = parts.length ∧ encode.length = parts.length)
  guard (limits.domain ≠ [])
  some (.stitched limits parts bounds encode)

/-- The function that an object describes, if at most `levels` are nested in each other. -/
def ofObjectWithin? (store : Store) : Nat → Object → Option Function
  | 0, _ => none
  | levels + 1, o => do
    let o ← store.resolve? o
    let d ← o.dictLike?
    match (← d.getAs? Object.uint8? "FunctionType").toNat with
    | 0 =>
      let s ← o.stream?
      let data ← (s.decoded store).toOption
      let f ← SampledFunction.ofDict? d data
      some (.sampled f)
    | 2 =>
      let f ← PowerFunction.ofDict? d
      some (.power f)
    | 3 =>
      let items ← store.entry? Object.array? d "Functions"
      let parts ← items.mapM (ofObjectWithin? store levels)
      stitch? d store parts
    | _ => none

/-- The function that an object describes. -/
def ofObject? (store : Store) (o : Object) : Option Function := ofObjectWithin? store maxNesting o

end Function

end Folio
