import Folio.Asn1.Error
import Folio.Error

/-!
# Errors of signatures
-/

namespace Folio.Signature

/-- What does not have the expected shape. -/
inductive Malformation where
  | emptyCertificate
  | certificateFields
  | publicKeyAlgorithm
  | validity
  | contentInfoFields
  | unknownContentType
  | signedDataFields
  | missingSignerInfos
  | unexpectedElement
  | noSignerInfo
  | noSignerCertificate
  | signerInfoFields
  | issuerAndSerialNumber
  | missingSignature
  | missingMessageDigest
  | timestampToken
  | timestampContent
  | timestampInfo
  | invalidAttribute
  | attributeWithoutValue
  | emptyAlgorithmIdentifier
deriving DecidableEq

/-- The wording of a malformation. -/
def Malformation.text : Malformation → String
  | emptyCertificate => "empty certificate"
  | certificateFields => "certificate is missing fields"
  | publicKeyAlgorithm => "missing public key algorithm"
  | validity => "invalid validity"
  | contentInfoFields => "content info is missing fields"
  | unknownContentType => "unknown content type"
  | signedDataFields => "signed data is missing fields"
  | missingSignerInfos => "missing signer infos"
  | unexpectedElement => "unexpected element in signed data"
  | noSignerInfo => "no signer info"
  | noSignerCertificate => "no certificate matches the signer"
  | signerInfoFields => "signer info is missing fields"
  | issuerAndSerialNumber => "invalid issuer and serial number"
  | missingSignature => "signer info is missing the signature"
  | missingMessageDigest => "signed attributes lack a message digest"
  | timestampToken => "invalid timestamp token"
  | timestampContent => "timestamp token lacks content"
  | timestampInfo => "invalid timestamp info"
  | invalidAttribute => "invalid attribute"
  | attributeWithoutValue => "attribute without value"
  | emptyAlgorithmIdentifier => "empty algorithm identifier"

/-- What is valid but not supported. -/
inductive Limitation where
  | otherContentType
  | subjectKeyIdentifier
  | signerInfoVersion
deriving DecidableEq

/-- The wording of a limitation. -/
def Limitation.text : Limitation → String
  | otherContentType => "content type other than signed data"
  | subjectKeyIdentifier => "signer identified by subject key identifier"
  | signerInfoVersion => "signer info version"

/-- Why a signature cannot be read. -/
inductive Error where
  /-- An element of it cannot be read. -/
  | encoding (error : Asn1.Error)
  | malformed (what : Malformation)
  | unsupported (what : Limitation)
deriving DecidableEq

namespace Error

/-- The wording of an error. -/
def message : Error → String
  | encoding error => "invalid DER: " ++ error.message
  | malformed what => "malformed signature: " ++ what.text
  | unsupported what => "unsupported signature: " ++ what.text

/-- An error of a signature as one of the document. -/
def report : Error → ErrorReport
  | encoding _ => ⟨.malformed, "invalid DER in signature"⟩
  | malformed what => ⟨.malformed, what.text⟩
  | unsupported what => ⟨.unsupported, what.text⟩

end Error

/-- What is read from elements, as part of a signature. -/
def fromAsn1 {α : Type} (r : Except Asn1.Error α) : Except Error α := r.mapError .encoding

instance : MonadLift (Except Asn1.Error) (Except Error) := ⟨fromAsn1⟩

end Folio.Signature
