import Folio.Digest.Padding

/-!
# SHA-2

The digests of the SHA-2 family. They share one construction over words of 32 or of 64 bits and
differ in constants, in the number of steps and in how much of the last state is the digest. A word
is kept as a natural number below `2 ^ bits`.
-/

namespace Folio.Digest.Sha2

/-- What distinguishes the members of the family. -/
structure Variant where
  /-- The number of bits of a word. -/
  bits : Nat
  /-- One constant for each step: fractions of the cube roots of the first primes. -/
  constants : Array Nat
  /-- The state before the first block. -/
  start : List Nat
  /-- The rotations and the shift that extend a block by its earlier words. -/
  small0 : Nat × Nat × Nat
  small1 : Nat × Nat × Nat
  /-- The rotations of the two sums of a step. -/
  big0 : Nat × Nat × Nat
  big1 : Nat × Nat × Nat
  /-- The length of the digest in bytes. -/
  length : Nat

namespace Variant

/-- A sum cut to a word. -/
def wrap (v : Variant) (n : Nat) : Nat := n % (1 <<< v.bits)

/-- A word rotated to the right. -/
def rotate (v : Variant) (x n : Nat) : Nat := v.wrap ((x >>> n) ||| (x <<< (v.bits - n)))

/-- Two rotations and a shift of a word, joined by exclusive or. -/
def small (v : Variant) (amounts : Nat × Nat × Nat) (x : Nat) : Nat :=
  v.rotate x amounts.1 ^^^ v.rotate x amounts.2.1 ^^^ (x >>> amounts.2.2)

/-- Three rotations of a word, joined by exclusive or. -/
def big (v : Variant) (amounts : Nat × Nat × Nat) (x : Nat) : Nat :=
  v.rotate x amounts.1 ^^^ v.rotate x amounts.2.1 ^^^ v.rotate x amounts.2.2

/-- One word for each step, of which the first 16 are the block. -/
def schedule (v : Variant) (block : Bytes) : Array Nat :=
  let words := ((Bytes.blocks (v.bits / 8) block).map Bytes.toNatBE).toArray
  (List.range (v.constants.size - 16)).foldl (fun w i =>
    w.push (v.wrap (w.getD i 0 + v.small v.small0 (w.getD (i + 1) 0) + w.getD (i + 9) 0 +
      v.small v.small1 (w.getD (i + 14) 0)))) words

/-- One step over the words of a state. -/
def step (v : Variant) (words : Array Nat) (state : List Nat) (i : Nat) : List Nat :=
  match state with
  | [a, b, c, d, e, f, g, h] =>
    let choice := (e &&& f) ^^^ ((1 <<< v.bits - 1 - e) &&& g)
    let majority := (a &&& b) ^^^ (a &&& c) ^^^ (b &&& c)
    let t := h + v.big v.big1 e + choice + v.constants.getD i 0 + words.getD i 0
    [v.wrap (t + v.big v.big0 a + majority), a, b, c, v.wrap (d + t), e, f, g]
  | other => other

/-- The state after a block. -/
def compress (v : Variant) (state : List Nat) (block : Bytes) : List Nat :=
  let last := (List.range v.constants.size).foldl (v.step (v.schedule block)) state
  (state.zip last).map fun (x, y) => v.wrap (x + y)

/-- The digest of a message. -/
def digest (v : Variant) (message : Bytes) : Bytes :=
  let blocks := paddedBlocks (v.bits * 2) (v.bits / 4) Bytes.ofNatBE message
  ((blocks.foldl v.compress v.start).flatMap (Bytes.ofNatBE (v.bits / 8))).take v.length

end Variant

/-- The constants of the steps over 32-bit words. -/
def constants32 : Array Nat := #[
  0x428a2f98, 0x71374491, 0xb5c0fbcf, 0xe9b5dba5, 0x3956c25b, 0x59f111f1,
  0x923f82a4, 0xab1c5ed5, 0xd807aa98, 0x12835b01, 0x243185be, 0x550c7dc3,
  0x72be5d74, 0x80deb1fe, 0x9bdc06a7, 0xc19bf174, 0xe49b69c1, 0xefbe4786,
  0x0fc19dc6, 0x240ca1cc, 0x2de92c6f, 0x4a7484aa, 0x5cb0a9dc, 0x76f988da,
  0x983e5152, 0xa831c66d, 0xb00327c8, 0xbf597fc7, 0xc6e00bf3, 0xd5a79147,
  0x06ca6351, 0x14292967, 0x27b70a85, 0x2e1b2138, 0x4d2c6dfc, 0x53380d13,
  0x650a7354, 0x766a0abb, 0x81c2c92e, 0x92722c85, 0xa2bfe8a1, 0xa81a664b,
  0xc24b8b70, 0xc76c51a3, 0xd192e819, 0xd6990624, 0xf40e3585, 0x106aa070,
  0x19a4c116, 0x1e376c08, 0x2748774c, 0x34b0bcb5, 0x391c0cb3, 0x4ed8aa4a,
  0x5b9cca4f, 0x682e6ff3, 0x748f82ee, 0x78a5636f, 0x84c87814, 0x8cc70208,
  0x90befffa, 0xa4506ceb, 0xbef9a3f7, 0xc67178f2]

/-- The constants of the steps over 64-bit words. -/
def constants64 : Array Nat := #[
  0x428a2f98d728ae22, 0x7137449123ef65cd, 0xb5c0fbcfec4d3b2f, 0xe9b5dba58189dbbc,
  0x3956c25bf348b538, 0x59f111f1b605d019, 0x923f82a4af194f9b, 0xab1c5ed5da6d8118,
  0xd807aa98a3030242, 0x12835b0145706fbe, 0x243185be4ee4b28c, 0x550c7dc3d5ffb4e2,
  0x72be5d74f27b896f, 0x80deb1fe3b1696b1, 0x9bdc06a725c71235, 0xc19bf174cf692694,
  0xe49b69c19ef14ad2, 0xefbe4786384f25e3, 0x0fc19dc68b8cd5b5, 0x240ca1cc77ac9c65,
  0x2de92c6f592b0275, 0x4a7484aa6ea6e483, 0x5cb0a9dcbd41fbd4, 0x76f988da831153b5,
  0x983e5152ee66dfab, 0xa831c66d2db43210, 0xb00327c898fb213f, 0xbf597fc7beef0ee4,
  0xc6e00bf33da88fc2, 0xd5a79147930aa725, 0x06ca6351e003826f, 0x142929670a0e6e70,
  0x27b70a8546d22ffc, 0x2e1b21385c26c926, 0x4d2c6dfc5ac42aed, 0x53380d139d95b3df,
  0x650a73548baf63de, 0x766a0abb3c77b2a8, 0x81c2c92e47edaee6, 0x92722c851482353b,
  0xa2bfe8a14cf10364, 0xa81a664bbc423001, 0xc24b8b70d0f89791, 0xc76c51a30654be30,
  0xd192e819d6ef5218, 0xd69906245565a910, 0xf40e35855771202a, 0x106aa07032bbd1b8,
  0x19a4c116b8d2d0c8, 0x1e376c085141ab53, 0x2748774cdf8eeb99, 0x34b0bcb5e19b48a8,
  0x391c0cb3c5c95a63, 0x4ed8aa4ae3418acb, 0x5b9cca4f7763e373, 0x682e6ff3d6b2b8a3,
  0x748f82ee5defb2fc, 0x78a5636f43172f60, 0x84c87814a1f0ab72, 0x8cc702081a6439ec,
  0x90befffa23631e28, 0xa4506cebde82bde9, 0xbef9a3f7b2c67915, 0xc67178f2e372532b,
  0xca273eceea26619c, 0xd186b8c721c0c207, 0xeada7dd6cde0eb1e, 0xf57d4f7fee6ed178,
  0x06f067aa72176fba, 0x0a637dc5a2c898a6, 0x113f9804bef90dae, 0x1b710b35131c471b,
  0x28db77f523047d84, 0x32caab7b40c72493, 0x3c9ebe0a15c9bebc, 0x431d67c49c100d4c,
  0x4cc5d4becb3e42b6, 0x597f299cfc657e2a, 0x5fcb6fab3ad6faec, 0x6c44198c4a475817]

/-- SHA-256. -/
def sha256 : Variant where
  bits := 32
  constants := constants32
  start := [
    0x6a09e667, 0xbb67ae85, 0x3c6ef372, 0xa54ff53a, 0x510e527f, 0x9b05688c,
    0x1f83d9ab, 0x5be0cd19]
  small0 := (7, 18, 3)
  small1 := (17, 19, 10)
  big0 := (2, 13, 22)
  big1 := (6, 11, 25)
  length := 32

/-- SHA-512. -/
def sha512 : Variant where
  bits := 64
  constants := constants64
  start := [
    0x6a09e667f3bcc908, 0xbb67ae8584caa73b, 0x3c6ef372fe94f82b, 0xa54ff53a5f1d36f1,
    0x510e527fade682d1, 0x9b05688c2b3e6c1f, 0x1f83d9abfb41bd6b, 0x5be0cd19137e2179]
  small0 := (1, 8, 7)
  small1 := (19, 61, 6)
  big0 := (28, 34, 39)
  big1 := (14, 18, 41)
  length := 64

/-- SHA-384: another start, and a shorter digest. -/
def sha384 : Variant := { sha512 with
  start := [
    0xcbbb9d5dc1059ed8, 0x629a292a367cd507, 0x9159015a3070dd17, 0x152fecd8f70e5939,
    0x67332667ffc00b31, 0x8eb44a8768581511, 0xdb0c2e0d64f98fa7, 0x47b5481dbefa4fa4]
  length := 48 }

end Folio.Digest.Sha2
