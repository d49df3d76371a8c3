import Folio.Error
import Folio.Object.Str

/-!
# Decryption

An encrypted document has a security manager, which decrypts strings and the data of streams for
the indirect objects they belong to. A manager without a provider stands for a document whose
encryption is not supported: it fails on everything.
-/

namespace Folio

namespace Security

/-- The algorithms that decrypt one document. -/
structure Provider where
  /-- The key of the whole document. -/
  key : Bytes
  /-- Decrypts the data of a string of an indirect object with a key. -/
  decrypt? : Ref → Bytes → Bytes → Option Bytes
  /-- Decrypts the data of a stream of an indirect object with a key. -/
  decryptStream? : Ref → Bytes → Bytes → Option Bytes := decrypt?

/-- What decrypts a document, if anything does. -/
structure Manager where
  provider : Option Provider

namespace Manager

/-- The manager of a document that cannot be decrypted. -/
def unavailable : Manager := ⟨none⟩

/-- Whether there is a provider. -/
def isAvailable (m : Manager) : Bool := m.provider.isSome

/-- The provider, or the error that there is none. -/
def getProvider (m : Manager) : Except Error Provider :=
  match m.provider with
  | some p => .ok p
  | none => .error .noSecurityProvider

/-- The key of the document. -/
def key (m : Manager) : Except Error Bytes := m.getProvider.map Provider.key

/-- The data of a string of an indirect object, decrypted with a key. -/
def decrypt (m : Manager) (owner : Ref) (key data : Bytes) : Except Error Bytes := do
  let p ← m.getProvider
  match p.decrypt? owner key data with
  | some plain => .ok plain
  | none => .error .invalidEncryptedString

/-- The data of a stream of an indirect object, decrypted with the key of the document. -/
def decryptStream (m : Manager) (owner : Ref) (data : Bytes) : Except Error Bytes := do
  let p ← m.getProvider
  match p.decryptStream? owner p.key data with
  | some plain => .ok plain
  | none => .error .invalidEncryptedStream

end Manager

end Security

namespace Str

/-- The data of the string, decrypted if the document is encrypted and the owner is known. -/
def decrypted (s : Str) (security : Option Security.Manager) : Except Error Bytes :=
  match security, s.owner with
  | some m, some owner => do m.decrypt owner (← m.key) s.bytes
  | _, _ => .ok s.bytes

/-- The text of the string, decrypted if the document is encrypted and the owner is known. -/
def decryptedText (s : Str) (security : Option Security.Manager) : Except Error String :=
  match security, s.owner with
  | some _, some _ => (s.decrypted security).map decodeText
  | _, _ => .ok s.text

end Str

end Folio
