import Folio.Bytes

/-!
# Run-length coding

A length below 128 announces that many bytes and one more, a length above 128 a byte that is
repeated, and 128 is the end. Data that ends early keeps the runs that are complete.
-/

namespace Folio.Filter.RunLength

/-- The bytes of at most `fuel` runs. -/
def decodeRuns : Nat → Bytes → Bytes
  | 0, _ => []
  | _, [] => []
  | fuel + 1, length :: rest =>
    if length = 128 then []
    else if length < 128 then
      match Bytes.splitAt? rest (length.toNat + 1) with
      | none => []
      | some (run, rest) => run ++ decodeRuns fuel rest
    else
      match rest with
      | [] => []
      | b :: rest => List.replicate (257 - length.toNat) b ++ decodeRuns fuel rest

/-- The bytes of all runs. -/
def decode (data : Bytes) : Bytes := decodeRuns data.length data

end Folio.Filter.RunLength
