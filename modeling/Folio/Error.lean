/-!
# Errors

What can be wrong with a document. `Error.kind` sorts the causes by who is to blame: the document,
this library, a codec or the encryption; `Error.message` words them.
-/

namespace Folio

/-- The kinds of errors. -/
inductive ErrorKind where
  /-- A structure of the document does not have the expected shape. -/
  | malformed
  /-- A valid variant is not supported. -/
  | unsupported
  /-- Encoded data cannot be decoded. -/
  | codec
  /-- The document cannot be decrypted. -/
  | security
deriving DecidableEq

/-- How messages of the kind begin. -/
def ErrorKind.text : ErrorKind → String
  | malformed => "malformed structure"
  | unsupported => "unsupported variant"
  | codec => "codec failure"
  | security => "security unavailable"

/-- A kind of error and what it was about. -/
structure ErrorReport where
  kind : ErrorKind
  detail : String
deriving DecidableEq

/-- The wording of a report. -/
def ErrorReport.message (r : ErrorReport) : String := r.kind.text ++ ": " ++ r.detail

/-- What is wrong with a document. -/
inductive Error where
  | noIndirectObjects
  | invalidFilterEntry
  | unknownFilter
  | filterFailed
  | imageFilter
  | noSecurityProvider
  | invalidEncryptedString
  | invalidEncryptedStream
  /-- The encryption dictionary lacks an entry. -/
  | missingEncryptEntry (key : String)
  | missingCryptFilter
  | unsupportedCryptMethod
  | unsupportedEncryptionVersion
  | unsupportedEncryptionRevision
  | passwordRequired
deriving DecidableEq

namespace Error

/-- The kind of an error and what it is about. -/
def report : Error → ErrorReport
  | noIndirectObjects => ⟨.malformed, "no indirect objects found"⟩
  | invalidFilterEntry => ⟨.malformed, "invalid /Filter entry"⟩
  | unknownFilter => ⟨.unsupported, "unknown stream filter"⟩
  | filterFailed => ⟨.codec, "failed to apply stream filter"⟩
  | imageFilter => ⟨.unsupported, "stream uses an image filter"⟩
  | noSecurityProvider => ⟨.security, "no security provider for encrypted document"⟩
  | invalidEncryptedString => ⟨.malformed, "invalid encrypted string"⟩
  | invalidEncryptedStream => ⟨.malformed, "invalid encrypted stream"⟩
  | missingEncryptEntry key => ⟨.malformed, "missing /" ++ key ++ " in encryption dictionary"⟩
  | missingCryptFilter => ⟨.malformed, "missing crypt filter"⟩
  | unsupportedCryptMethod => ⟨.security, "unsupported crypt filter method"⟩
  | unsupportedEncryptionVersion => ⟨.security, "unsupported encryption version"⟩
  | unsupportedEncryptionRevision => ⟨.security, "unsupported encryption revision"⟩
  | passwordRequired => ⟨.security, "document requires a user password"⟩

/-- The wording of an error. -/
def message (e : Error) : String := e.report.message

end Error

end Folio
