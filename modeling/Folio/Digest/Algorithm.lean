import Folio.Asn1.Oid
import Folio.Digest.Md5
import Folio.Digest.Sha1
import Folio.Digest.Sha2

/-!
# Digest algorithms

The digests that signatures are computed with, and their computation from parts of a message.
-/

namespace Folio.Digest

/-- A digest algorithm. -/
inductive Algorithm where
  | md5
  | sha1
  | sha256
  | sha384
  | sha512
deriving DecidableEq

namespace Algorithm

/-- The algorithm with an identifier. An algorithm of RSA signatures stands for its digest. -/
def ofOid? (o : Asn1.Oid) : Option Algorithm :=
  if o = .md5 ∨ o = .md5WithRsa then some md5
  else if o = .sha1 ∨ o = .sha1WithRsa then some sha1
  else if o = .sha256 ∨ o = .sha256WithRsa then some sha256
  else if o = .sha384 ∨ o = .sha384WithRsa then some sha384
  else if o = .sha512 ∨ o = .sha512WithRsa then some sha512
  else none

/-- The name of the algorithm. -/
def name : Algorithm → String
  | md5 => "MD5"
  | sha1 => "SHA-1"
  | sha256 => "SHA-256"
  | sha384 => "SHA-384"
  | sha512 => "SHA-512"

/-- The length of a digest in bytes. -/
def length : Algorithm → Nat
  | md5 => 16
  | sha1 => 20
  | sha256 => 32
  | sha384 => 48
  | sha512 => 64

/-- The digest of a message. -/
def digest : Algorithm → Bytes → Bytes
  | md5 => Md5.digest
  | sha1 => Sha1.digest
  | sha256 => Sha2.sha256.digest
  | sha384 => Sha2.sha384.digest
  | sha512 => Sha2.sha512.digest

end Algorithm

/-- A digest being computed from the parts of a message. -/
structure Hasher where
  algorithm : Algorithm
  /-- The parts so far, latest first. -/
  parts : List Bytes := []

namespace Hasher

/-- The computation with another part of the message. -/
def update (h : Hasher) (part : Bytes) : Hasher := { h with parts := part :: h.parts }

/-- The digest of all parts. -/
def finish (h : Hasher) : Bytes := h.algorithm.digest h.parts.reverse.flatten

end Hasher

end Folio.Digest
