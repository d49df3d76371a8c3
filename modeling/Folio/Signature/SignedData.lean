import Folio.Digest.Algorithm
import Folio.Signature.Certificate

/-!
# Signed data

The contents of a signature: certificates, what the first signer signed and how, and the signature
value. The structure is read at fixed positions.
-/

namespace Folio.Signature

open Asn1

/-- A timestamp. -/
structure TimestampToken where
  /-- The whole encoding. -/
  raw : Bytes
  /-- The time that it states, if that can be read. -/
  time : Option Time
deriving DecidableEq

/-- What is known about a signer. -/
structure SignerInfo where
  /-- The encoded name of the issuer of the signer's certificate. -/
  issuer : Bytes
  /-- The serial number of the signer's certificate without leading zeros. -/
  serialNumber : Bytes
  digestOid : Oid
  /-- The encoded set of signed attributes. -/
  signedAttributes : Option Bytes
  messageDigest : Option Bytes
  signingTime : Option Time
  signatureAlgorithm : Oid
  signature : Bytes
  timestampToken : Option TimestampToken
deriving DecidableEq

/-- Signed data with its first signer. -/
structure SignedData where
  digestOids : List Oid
  /-- The content, if it is part of the signed data. -/
  content : Option Bytes
  certificates : List Certificate
  signer : SignerInfo
  signerCertificate : Certificate
deriving DecidableEq

/-- The identifier of an algorithm. -/
def algorithmOid (e : Element) : Except Error Oid := do
  let first ← Certificate.firstOf e .emptyAlgorithmIdentifier
  first.oid

/-- The type of an attribute and its first value. -/
def readAttribute (e : Element) : Except Error (Oid × Element) := do
  match ← e.sequence with
  | kind :: values :: _ =>
    let kind ← kind.oid
    let values ← values.expect Tag.set
    match values.firstChild? with
    | some value =>
      let value ← value
      pure (kind, value)
    | none => throw (.malformed .attributeWithoutValue)
  | _ => throw (.malformed .invalidAttribute)

/-- What `f` makes of each child of an element, up to the first error. -/
def forChildren {α : Type} (e : Element) (f : Element → Except Error α) :
    Except Error (List α) := do
  let (elements, error) := e.children
  let values ← elements.mapM f
  match error with
  | some error => throw (.encoding error)
  | none => pure values

/-- The attributes in a set with their first values. -/
def readAttributes (set : Element) : Except Error (List (Oid × Element)) :=
  forChildren set readAttribute

/-- The time that a timestamp states. -/
def timestampTime (token : Element) : Except Error Time := do
  match ← token.sequence with
  | _ :: content :: _ =>
    let content ← content.explicit 0
    match (← content.sequence)[2]? with
    | none => throw (.malformed .timestampToken)
    | some content =>
      match ← content.sequence with
      | kind :: content :: _ =>
        let kind ← kind.oid
        if kind ≠ .timestampInfo then throw (.malformed .timestampContent)
        let content ← content.explicit 0
        let info ← content.octets
        let info ← Element.parse info
        match (← info.sequence)[4]? with
        | some time => time.time
        | none => throw (.malformed .timestampInfo)
      | _ => throw (.malformed .timestampContent)
  | _ => throw (.malformed .timestampToken)

/-- The timestamp among attributes that are not signed. -/
def findTimestamp (attributes : Element) : Option TimestampToken :=
  match readAttributes attributes with
  | .error _ => none
  | .ok attributes =>
    (attributes.find? fun (kind, _) => kind = .timestampToken).map fun (_, token) =>
      ⟨token.raw, (timestampTime token).toOption⟩

/-- What the signed attributes of a signer state: the digest of the message and the time of
signing. Of several attributes of one type the last counts. -/
def readSignedAttributes : Option Bytes → Option Time → List (Oid × Element) →
    Except Error (Option Bytes × Option Time)
  | digest, time, [] => .ok (digest, time)
  | digest, time, (kind, value) :: rest =>
    if kind = .messageDigest then do
      let digest ← value.octets
      readSignedAttributes (some digest) time rest
    else if kind = .signingTime then readSignedAttributes digest (value.time.toOption.or time) rest
    else readSignedAttributes digest time rest

/-- The encoding of a set in place of one whose tag depends on its place. -/
def retagAsSet (raw : Bytes) : Bytes := Tag.set :: raw.drop 1

namespace SignerInfo

/-- The issuer and the serial number that identify the certificate of a signer of a version. -/
def readIdentifier (version : Nat) (id : Element) : Except Error (Bytes × Bytes) := do
  if version = 1 then
    match ← id.sequence with
    | issuer :: serial :: _ =>
      let issuer ← issuer.expect Tag.sequence
      let serial ← serial.integer
      pure (issuer.raw, serial)
    | _ => throw (.malformed .issuerAndSerialNumber)
  else if version = 3 then throw (.unsupported .subjectKeyIdentifier)
  else throw (.unsupported .signerInfoVersion)

/-- The digest and the time among the signed attributes. Where there are attributes, the digest
must be one of them. -/
def readSigned (signed : Option Element) : Except Error (Option Bytes × Option Time) := do
  match signed with
  | none => pure (none, none)
  | some signed =>
    let attributes ← readAttributes signed
    let (digest, time) ← readSignedAttributes none none attributes
    if digest.isNone then throw (.malformed .missingMessageDigest)
    pure (digest, time)

/-- The signer that an element describes. -/
def ofElement (e : Element) : Except Error SignerInfo := do
  match ← e.sequence with
  | version :: id :: digestAlgorithm :: rest =>
    let version ← version.smallInteger
    let (issuer, serialNumber) ← readIdentifier version id
    let digestOid ← algorithmOid digestAlgorithm
    let (signed, rest) := match rest with
      | first :: rest =>
        if first.tag = Tag.context 0 then (some first, rest) else (none, first :: rest)
      | [] => (none, [])
    match rest with
    | algorithm :: signature :: rest =>
      let signatureAlgorithm ← algorithmOid algorithm
      let signature ← signature.octets
      let (messageDigest, signingTime) ← readSigned signed
      let unsigned := rest.head?.filter fun e => e.tag == Tag.context 1
      pure
        { issuer, serialNumber, digestOid
          signedAttributes := signed.map fun e => retagAsSet e.raw
          messageDigest, signingTime, signatureAlgorithm, signature
          timestampToken := unsigned.bind findTimestamp }
    | _ => throw (.malformed .missingSignature)
  | _ => throw (.malformed .signerInfoFields)

/-- The digest algorithm, if it is supported. -/
def digestAlgorithm? (s : SignerInfo) : Option Digest.Algorithm :=
  Digest.Algorithm.ofOid? s.digestOid

end SignerInfo

namespace SignedData

/-- The content that is part of signed data. -/
def readContent (e : Element) : Except Error (Option Bytes) := do
  match ← e.sequence with
  | _ :: content :: _ =>
    let content ← content.explicit 0
    let octets ← content.octets
    pure (some octets)
  | _ => pure none

/-- The certificates among the optional elements. Revocations are skipped. -/
def readCertificates : List Element → Except Error (List Certificate)
  | [] => .ok []
  | e :: rest => do
    let found ←
      if e.tag = Tag.context 0 then pure (Certificate.ofSet e)
      else if e.tag = Tag.context 1 then pure []
      else throw (.malformed .unexpectedElement)
    let others ← readCertificates rest
    pure (found ++ others)

/-- The signed data that an element encodes. -/
def ofElement (e : Element) : Except Error SignedData := do
  match ← e.sequence with
  | _version :: digestAlgorithms :: content :: rest =>
    let digestAlgorithms ← digestAlgorithms.expect Tag.set
    let digestOids ← forChildren digestAlgorithms algorithmOid
    let content ← readContent content
    match rest.getLast? with
    | none => throw (.malformed .missingSignerInfos)
    | some signers =>
      let certificates ← readCertificates rest.dropLast
      let signers ← signers.expect Tag.set
      match signers.firstChild? with
      | none => throw (.malformed .noSignerInfo)
      | some signer =>
        let signer ← signer
        let signer ← SignerInfo.ofElement signer
        let own := certificates.find? fun c => c.isIdentifiedBy signer.issuer signer.serialNumber
        match own with
        | none => throw (.malformed .noSignerCertificate)
        | some signerCertificate =>
          pure { digestOids, content, certificates, signer, signerCertificate }
  | _ => throw (.malformed .signedDataFields)

/-- The signed data that some data encodes together with its content type. Bytes after it are
ignored. -/
def parse (data : Bytes) : Except Error SignedData := do
  let e ← Element.parse data
  match ← e.sequence with
  | kind :: content :: _ =>
    let kind ← kind.oid
    if kind = .signedData then
      let content ← content.explicit 0
      ofElement content
    else if kind ∈ [.data, .envelopedData, .digestedData, .encryptedData] then
      throw (.unsupported .otherContentType)
    else throw (.malformed .unknownContentType)
  | _ => throw (.malformed .contentInfoFields)

end SignedData

end Folio.Signature
