import Folio.Asn1.Element
import Folio.Signature.Error

/-!
# Certificates

Of a certificate only what identifies its owner is read, and the public key as it is encoded.
-/

namespace Folio.Signature

open Asn1

/-- A certificate. -/
structure Certificate where
  /-- The whole encoding. -/
  raw : Bytes
  /-- The bytes of the serial number without leading zeros. -/
  serialNumber : Bytes
  /-- The encoded name of the issuer. -/
  issuer : Bytes
  /-- The encoded name of the owner. -/
  subject : Bytes
  /-- The first and the last moment at which the certificate is valid, if they can be read. -/
  validity : Option (Time × Time)
  publicKeyAlgorithm : Oid
  /-- The encoded public key with its algorithm. -/
  publicKeyInfo : Bytes
deriving DecidableEq

namespace Certificate

/-- The first child of a sequence, or the given error if it has none. -/
def firstOf (e : Element) (missing : Malformation) : Except Error Element := do
  match (← e.expect Tag.sequence).firstChild? with
  | some child => child
  | none => throw (.malformed missing)

/-- The first and the last moment that an element states. -/
def readValidity (e : Element) : Except Error (Time × Time) := do
  match ← e.sequence with
  | [first, last] =>
    let first ← first.time
    let last ← last.time
    pure (first, last)
  | _ => throw (.malformed .validity)

/-- The certificate that an element encodes. -/
def ofElement (e : Element) : Except Error Certificate := do
  match ← e.sequence with
  | [] => throw (.malformed .emptyCertificate)
  | body :: _ =>
    let fields ← body.sequence
    let fields := match fields with
      | version :: rest => if version.tag = Tag.context 0 then rest else version :: rest
      | [] => []
    match fields with
    | serial :: _ :: issuer :: validity :: subject :: keyInfo :: _ =>
      let keyInfo ← keyInfo.expect Tag.sequence
      let algorithm ← firstOf keyInfo .publicKeyAlgorithm
      let algorithm ← firstOf algorithm .publicKeyAlgorithm
      let algorithm ← algorithm.oid
      let serial ← serial.integer
      let issuer ← issuer.expect Tag.sequence
      let subject ← subject.expect Tag.sequence
      pure
        { raw := e.raw
          serialNumber := serial
          issuer := issuer.raw
          subject := subject.raw
          validity := (readValidity validity).toOption
          publicKeyAlgorithm := algorithm
          publicKeyInfo := keyInfo.raw }
    | _ => throw (.malformed .certificateFields)

/-- The certificate that some data encodes. -/
def parse (data : Bytes) : Except Error Certificate := do
  let e ← Element.parse data
  ofElement e

/-- Whether a moment lies within the validity of the certificate. -/
def isValidAt (c : Certificate) (t : Time) : Bool :=
  c.validity.any fun (first, last) =>
    first.timestamp ≤ t.timestamp && t.timestamp ≤ last.timestamp

/-- Whether the certificate has the given issuer and serial number. -/
def isIdentifiedBy (c : Certificate) (issuer serialNumber : Bytes) : Bool :=
  c.issuer == issuer && c.serialNumber == serialNumber

/-- The value of a common name, if a part of a name is one. -/
def commonNameOf (part : List Element) : Option (Option String) :=
  match part with
  | [kind, value] =>
    match kind.oid with
    | .ok oid => if oid = .commonName then some value.text? else none
    | .error _ => none
  | _ => none

/-- The first common name among the parts of a name, which end in an error or not. -/
def findCommonName : List Element → Option Asn1.Error → Option (Option String)
  | [], none => none
  | [], some _ => some none
  | part :: rest, error =>
    match part.childList with
    | .error _ => some none
    | .ok elements => (commonNameOf elements).or (findCommonName rest error)

/-- The first common name among the groups of parts of a name. -/
def findGroupName : List Element → Option Asn1.Error → Option (Option String)
  | [], none => none
  | [], some _ => some none
  | group :: rest, error =>
    let (parts, partsError) := group.children
    (findCommonName parts partsError).or (findGroupName rest error)

/-- The first common name in an encoded name. What cannot be read before it makes it absent. -/
def commonName? (name : Bytes) : Option String :=
  match Element.parse name with
  | .error _ => none
  | .ok e =>
    let (groups, error) := e.children
    (findGroupName groups error).join

/-- The common name of the owner. -/
def subjectCommonName? (c : Certificate) : Option String := commonName? c.subject

/-- The common name of the issuer. -/
def issuerCommonName? (c : Certificate) : Option String := commonName? c.issuer

/-- The certificates in a set. Other elements and malformed certificates are skipped. -/
def ofSet (set : Element) : List Certificate :=
  (set.children.1.filter fun e => e.tag == Tag.sequence).filterMap fun e => (ofElement e).toOption

end Certificate

end Folio.Signature
