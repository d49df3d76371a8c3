import Folio.Bytes

/-!
# RC4

A stream cipher: a key determines a sequence of bytes, and data is encrypted and decrypted alike by
exclusive or with that sequence.
-/

namespace Folio.Cipher.Rc4

/-- A permutation of the bytes and two positions in it. -/
structure State where
  bytes : Array UInt8
  i : UInt8 := 0
  j : UInt8 := 0

/-- The byte at a position. -/
def State.at (s : State) (i : UInt8) : UInt8 := s.bytes.getD i.toNat 0

/-- The state in which the bytes at two positions have changed places. -/
def State.swap (s : State) (i j : UInt8) : State :=
  { s with bytes := s.bytes.swapIfInBounds i.toNat j.toNat }

/-- The state that a key determines. Its bytes are used over and over; without any, the bytes stay
in order. -/
def State.ofKey (key : Bytes) : State :=
  let start : State := ⟨((List.range 256).map Nat.toUInt8).toArray, 0, 0⟩
  if key.isEmpty then start
  else
    let key := key.toArray
    let mixed := (List.range 256).foldl (fun (s, j) n =>
      let j := j + s.at n.toUInt8 + key.getD (n % key.size) 0
      (s.swap n.toUInt8 j, j)) (start, (0 : UInt8))
    mixed.1

/-- The next byte of the sequence. -/
def State.next (s : State) : UInt8 × State :=
  let i := s.i + 1
  let j := s.j + s.at i
  let t := s.swap i j
  (t.at (t.at i + t.at j), { t with i, j })

/-- The first `count` bytes of the sequence. -/
def State.take : Nat → State → Bytes
  | 0, _ => []
  | count + 1, s =>
    let (b, s) := s.next
    b :: take count s

/-- The sequence of bytes that a key determines. -/
def keystream (key : Bytes) (count : Nat) : Bytes := (State.ofKey key).take count

/-- The data encrypted or decrypted with a key. -/
def apply (key data : Bytes) : Bytes :=
  List.zipWith (fun b k => b ^^^ k) data (keystream key data.length)

end Folio.Cipher.Rc4
