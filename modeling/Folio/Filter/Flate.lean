import Folio.Filter.Inflate

/-!
# Compressed streams with a checksum

A compressed stream has a header of two bytes and ends in a checksum of the output. The output is
fetched in portions, and a portion in which the data turns out corrupt is lost; data that just ends
early keeps all output. A stream without any output that does not end well is tried again as one
without header and checksum.
-/

namespace Folio.Filter.Flate

open Inflate

/-- The checksum of some output: the sum of its bytes and the sum of those sums. -/
def adler (out : Array UInt8) : Nat :=
  let (a, b) := out.foldl (fun (a, b) byte =>
    let a := (a + byte.toNat) % 65521
    (a, (b + a) % 65521)) (1, 0)
  b * 65536 + a

/-- The header: the method and the size of the window in the first byte, and a check over both
bytes. A stream that needs a dictionary is refused. -/
def header : Reader Unit := do
  let method ← bits 8
  let flags ← bits 8
  if (method * 256 + flags) % 31 ≠ 0 ∨ method % 16 ≠ 8 ∨ method / 16 > 7 then throw .corrupt
  if flags / 32 % 2 = 1 then
    let _ ← bits 32
    throw .corrupt

/-- The checksum after the blocks, highest byte first. -/
def checksum : Reader Unit := do
  modify fun s => { s with position := (s.position + 7) / 8 * 8 }
  let b3 ← bits 8
  let b2 ← bits 8
  let b1 ← bits 8
  let b0 ← bits 8
  if ((b3 * 256 + b2) * 256 + b1) * 256 + b0 ≠ adler (← get).out then throw .corrupt

/-- A stream with header and checksum. -/
def stream : Reader Unit := do
  header
  inflate
  checksum

/-- The end of the last portion that was fetched in full before `size` bytes were out. The first
portion has 32 bytes, and each further one doubles the output. -/
def fetched (size : Nat) : Nat := if size ≤ 32 then 0 else 1 <<< (size - 1).log2

/-- The output of reading some data, or nothing if it fails before any output has been fetched. -/
def run? (reader : Reader Unit) (data : Bytes) : Option Bytes :=
  let (result, s) := reader.run.run { data := data.toArray }
  let kept (out : Array UInt8) := if out.isEmpty then none else some out.toList
  match result with
  | .ok () => some s.out.toList
  | .error .truncated => kept s.out
  | .error .corrupt => kept (s.out.take (fetched s.out.size))
  | .error .beyondStart => kept (s.out.take (fetched (s.out.size + 1)))

/-- The output of compressed data. -/
def decode? (data : Bytes) : Option Bytes := (run? stream data).or (run? inflate data)

end Folio.Filter.Flate
