import Folio.Bytes

/-!
# Message padding

The digests of this folder read a message in blocks. The message is followed by the byte `80`, by
zeros, and by its length in bits, so that whole blocks result.
-/

namespace Folio.Digest

/-- The number of zeros between the byte `80` and a length field of `field` bytes. -/
def paddingZeros (block field length : Nat) : Nat :=
  (block - (length + 1 + field) % block) % block

/-- The blocks of a padded message. The length in bits is written by `encode` into a field of
`field` bytes. -/
def paddedBlocks (block field : Nat) (encode : Nat → Nat → Bytes) (message : Bytes) :
    List Bytes :=
  let zeros := List.replicate (paddingZeros block field message.length) 0
  Bytes.blocks block (message ++ 0x80 :: zeros ++ encode field (message.length * 8))

end Folio.Digest
