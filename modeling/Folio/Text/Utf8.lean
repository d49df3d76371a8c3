import Folio.Text.Utf16

/-!
# UTF-8

Strict and forgiving readings of UTF-8. `Utf8.decode?` refuses malformed data; `Utf8.decodeLossy`
puts one replacement character for each maximal part that starts like a character but does not end
as one.
-/

namespace Folio.Text.Utf8

/-- Whether a byte continues a character. -/
def isContinuation (b : UInt8) : Bool := 0x80 ≤ b && b < 0xC0

/-- How many bytes follow a first byte, and the range allowed for the one right after it. -/
def shape? (b : UInt8) : Option (Nat × UInt8 × UInt8) :=
  if 0xC2 ≤ b ∧ b ≤ 0xDF then some (1, 0x80, 0xBF)
  else if b = 0xE0 then some (2, 0xA0, 0xBF)
  else if b = 0xED then some (2, 0x80, 0x9F)
  else if 0xE1 ≤ b ∧ b ≤ 0xEF then some (2, 0x80, 0xBF)
  else if b = 0xF0 then some (3, 0x90, 0xBF)
  else if 0xF1 ≤ b ∧ b ≤ 0xF3 then some (3, 0x80, 0xBF)
  else if b = 0xF4 then some (3, 0x80, 0x8F)
  else none

/-- One step of reading: the character, or nothing for a malformed part, and the length of what
was read, which is at least one. -/
def next (b : UInt8) (rest : Bytes) : Option Char × Nat :=
  if b < 0x80 then (some (Char.ofNat b.toNat), 1)
  else
    match shape? b with
    | none => (none, 1)
    | some (count, low, high) =>
      let follows := (rest.take count).zipIdx.takeWhile fun (c, i) =>
        if i = 0 then low ≤ c && c ≤ high else isContinuation c
      if follows.length = count then
        let lead := b.toNat % (1 <<< (6 - count))
        (some (Char.ofNat (follows.foldl (fun n (c, _) => n * 64 + c.toNat % 64) lead)), count + 1)
      else (none, follows.length + 1)

/-- The steps of reading the data, each a character or nothing for a malformed part. -/
def steps (data : Bytes) : List (Option Char) :=
  go data.length data
where
  /-- At most `fuel` steps. -/
  go : Nat → Bytes → List (Option Char)
    | 0, _ => []
    | _ + 1, [] => []
    | fuel + 1, b :: rest =>
      let (char, length) := next b rest
      char :: go fuel (rest.drop (length - 1))

/-- The text, with one replacement character for each malformed part. -/
def decodeLossy (data : Bytes) : String :=
  String.ofList ((steps data).map (·.getD replacement))

/-- The text, if the data is well-formed. -/
def decode? (data : Bytes) : Option String :=
  ((steps data).mapM id).map String.ofList

end Folio.Text.Utf8
