import Folio.Signature.SignedData
import Folio.Store.Basic

/-!
# Validation

A signature covers two parts of a document. It is checked that these parts are what was signed, and
that the signature value, the certificate and the time of signing are good. Whether a signature
value belongs to a public key, and whom to trust, is for others to say.
-/

namespace Folio.Signature

open Asn1

/-- The two parts of a document that a signature covers, each as its offset and its length. -/
structure ByteRange where
  first : Nat × Nat
  second : Nat × Nat
deriving DecidableEq

namespace ByteRange

/-- The range that an array of four numbers states. -/
def ofObject? (o : Object) (store : Store) : Option ByteRange := do
  let items ← store.resolveAs? Object.array? o
  guard (items.length = 4)
  let offset1 ← store.item? Object.nat? items 0
  let length1 ← store.item? Object.nat? items 1
  let offset2 ← store.item? Object.nat? items 2
  let length2 ← store.item? Object.nat? items 3
  some ⟨(offset1, length1), (offset2, length2)⟩

/-- The parts of a document that the range covers, if it has them. -/
def covered? (r : ByteRange) (document : Bytes) : Option (Bytes × Bytes) := do
  let first ← document.slice? r.first.1 (r.first.1 + r.first.2)
  let second ← document.slice? r.second.1 (r.second.1 + r.second.2)
  some (first, second)

end ByteRange

/-- A question to whoever knows public keys: is this value the signature of this message by the
owner of this certificate? -/
structure SignatureCheck where
  certificate : Certificate
  digest : Digest.Algorithm
  algorithm : Oid
  message : Bytes
  signature : Bytes

/-- Whoever answers such questions. -/
abbrev Verifier := SignatureCheck → Bool

/-- Whoever decides whether a certificate is trusted, given all certificates of the signature. -/
abbrev TrustStore := Certificate → List Certificate → Bool

/-- The outcome of a validation. -/
structure Validation where
  /-- Whether the covered parts differ from what was signed, or this could not be checked. -/
  modified : Bool
  /-- Whether the signature value is good. -/
  verified : Bool
  /-- Whether the signer's certificate is trusted. -/
  trusted : Bool
  /-- Whether the signer's certificate was valid at the time of signing. -/
  timeValid : Bool
  signingTime : Option Time
deriving DecidableEq

/-- Whether all checks passed. -/
def Validation.isValid (v : Validation) : Bool :=
  !v.modified && v.verified && v.trusted && v.timeValid

namespace SignedData

/-- The message that the signature value belongs to: the signed attributes, or else the content, or
else the covered parts of the document. -/
def signedMessage (s : SignedData) (covered : Bytes × Bytes) : Bytes :=
  match s.signer.signedAttributes, s.content with
  | some attributes, _ => attributes
  | none, some content => content
  | none, none => covered.1 ++ covered.2

/-- The question about the signature value, if the document has the covered parts and the digest
algorithm is supported. -/
def check? (s : SignedData) (document : Bytes) (range : ByteRange) : Option SignatureCheck := do
  let digest ← s.signer.digestAlgorithm?
  let covered ← range.covered? document
  some ⟨s.signerCertificate, digest, s.signer.signatureAlgorithm, s.signedMessage covered,
    s.signer.signature⟩

/-- The digest of the covered parts of a document. -/
def documentDigest (digest : Digest.Algorithm) (covered : Bytes × Bytes) : Bytes :=
  (((Digest.Hasher.mk digest []).update covered.1).update covered.2).finish

/-- Whether the digest among the signed attributes, if there are any, is that of the content or of
the covered parts. -/
def digestMatches (s : SignedData) (digest : Digest.Algorithm) (covered : Bytes × Bytes) : Bool :=
  match s.signer.signedAttributes, s.signer.messageDigest with
  | some _, some stated =>
    s.content.any (fun content => digest.digest content == stated) ||
      documentDigest digest covered == stated
  | _, _ => true

/-- Whether the content, if there is any, is the digest of the covered parts. -/
def contentMatches (s : SignedData) (digest : Digest.Algorithm) (covered : Bytes × Bytes) :
    Bool :=
  s.content.all fun content => content == documentDigest digest covered

/-- Checks a signature against the document that it belongs to. -/
def validate (s : SignedData) (verifier : Verifier) (trust : Option TrustStore)
    (document : Bytes) (range : ByteRange) : Validation :=
  let unchecked : Validation :=
    { modified := true
      verified := false
      trusted := trust.any fun trusts => trusts s.signerCertificate s.certificates
      timeValid := s.signer.signingTime.any s.signerCertificate.isValidAt
      signingTime := s.signer.signingTime }
  match s.check? document range, range.covered? document with
  | some check, some covered =>
    let verified := verifier check
    let unmodified := s.digestMatches check.digest covered && verified &&
      s.contentMatches check.digest covered
    { unchecked with verified, modified := !unmodified }
  | _, _ => unchecked

end SignedData

end Folio.Signature
