import Folio.Cipher.Aes
import Folio.Cipher.Rc4
import Folio.Digest.Md5
import Folio.Object.Cast
import Folio.Security.Basic

/-!
# The standard security handler

Password-based encryption in its revisions 2 to 4, opened with the empty user password. The key of
the document is derived from its encryption dictionary and its identifier, and every indirect
object has a key of its own, derived from that key and its reference.
-/

namespace Folio.Security

/-- The key of one indirect object, from the key of the document. -/
def objectKey (key : Bytes) (owner : Ref) (aes : Bool) : Bytes :=
  let number := Bytes.ofNatLE 3 owner.number.toUInt32.toNat
  let generation := Bytes.ofNatLE 2 owner.generation.toUInt32.toNat
  let salt := if aes then Bytes.ofAscii "sAlT" else []
  (Digest.Md5.digest (key ++ number ++ generation ++ salt)).take (min (key.length + 5) 16)

/-- How a class of data is encrypted. -/
inductive Method where
  | identity
  | rc4
  | aes
deriving DecidableEq

namespace Method

/-- The method with a name. -/
def ofName? (n : Name) : Option Method :=
  if n = "None" ∨ n = "Identity" then some identity
  else if n = "V2" then some rc4
  else if n = "AESV2" then some aes
  else none

/-- The data of an indirect object, decrypted with the key of the document. -/
def decrypt? (m : Method) (owner : Ref) (key data : Bytes) : Option Bytes :=
  match m with
  | identity => some data
  | rc4 => some (Cipher.Rc4.apply (objectKey key owner false) data)
  | aes => Cipher.Aes.decrypt? (objectKey key owner true) data

/-- The data of an indirect object, encrypted with the key of the document. The initialization
vector is the digest of the object's key. -/
def encrypt? (m : Method) (owner : Ref) (key data : Bytes) : Option Bytes :=
  match m with
  | identity => some data
  | rc4 => some (Cipher.Rc4.apply (objectKey key owner false) data)
  | aes =>
    let key := objectKey key owner true
    Cipher.Aes.encrypt? key (Digest.Md5.digest key) data

end Method

/-- The standard security handler of a document. -/
structure Standard where
  key : Bytes
  revision : UInt8
  /-- The access permissions of the user, as the bits of a word. -/
  permissions : UInt32
  stringMethod : Method
  streamMethod : Method

namespace Standard

/-- The bytes that complete a password. -/
def passwordPadding : Bytes := [
  0x28, 0xbf, 0x4e, 0x5e, 0x4e, 0x75, 0x8a, 0x41, 0x64, 0x00, 0x4e, 0x56, 0xff, 0xfa, 0x01, 0x08,
  0x2e, 0x2e, 0x00, 0xb6, 0xd0, 0x68, 0x3e, 0x80, 0x2f, 0x0c, 0xa9, 0xfe, 0x64, 0x53, 0x69, 0x7a]

/-- The bits of the permissions word that have a meaning. -/
def knownPermissions : UInt32 := 0xf3c

/-- The value of a function applied `count` times. -/
def repeatTimes (f : Bytes → Bytes) : Nat → Bytes → Bytes
  | 0, b => b
  | count + 1, b => repeatTimes f count (f b)

/-- The key of a document. -/
def documentKey (encryptMetadata : Bool) (revision : UInt8) (length : Nat) (owner : Bytes)
    (permissions : UInt32) (id : Bytes) : Bytes :=
  let plain := if !encryptMetadata && revision ≥ 4 then [0xff, 0xff, 0xff, 0xff] else []
  let seed := passwordPadding ++ owner ++ Bytes.ofNatLE 4 permissions.toNat ++ id ++ plain
  let hash := Digest.Md5.digest seed
  let hash :=
    if revision ≥ 3 then repeatTimes (fun h => Digest.Md5.digest (h.take length)) 50 hash else hash
  hash.take length

/-- The value that proves the empty user password, in revision 2. -/
def passwordProof2 (key : Bytes) : Bytes := Cipher.Rc4.apply key passwordPadding

/-- The value that proves the empty user password, from revision 3 on. -/
def passwordProof3 (key id : Bytes) : Bytes :=
  let first := Cipher.Rc4.apply key (Digest.Md5.digest (passwordPadding ++ id))
  (List.range 19).foldl (fun data i =>
    Cipher.Rc4.apply (key.map fun b => b ^^^ (i + 1).toUInt8) data) first

/-- The method that the crypt filter under `entry` prescribes. -/
def cryptMethod (encrypt : Dict) (entry : Name) : Except Error Method :=
  match encrypt.getAs? Object.name? entry with
  | none => .ok .identity
  | some name =>
    if name = "Identity" then .ok .identity
    else
      let filters := encrypt.getAs? Object.dict? "CF"
      let filter := filters.bind fun d => d.getAs? Object.dict? name
      match filter.bind fun d => d.getAs? Object.name? "CFM" with
      | none => .error .missingCryptFilter
      | some method =>
        match Method.ofName? method with
        | some m => .ok m
        | none => .error .unsupportedCryptMethod

/-- An entry that the encryption dictionary must have. -/
def require {α : Type} (encrypt : Dict) (cast : Object → Option α) (key : String) :
    Except Error α :=
  match encrypt.getAs? cast key with
  | some value => .ok value
  | none => .error (.missingEncryptEntry key)

/-- The handler that an encryption dictionary and the first part of a document's identifier
describe. -/
def ofDict (encrypt : Dict) (id : Bytes) : Except Error Standard := do
  let version ← require encrypt Object.uint8? "V"
  let revision ← require encrypt Object.uint8? "R"
  let encryptMetadata := (encrypt.getAs? Object.bool? "EncryptMetadata").getD true
  let stated := encrypt.getAs? Object.uint16? "Length"
  let bits : UInt16 ←
    if version = 1 then pure 40
    else if version = 2 then pure (stated.getD 40)
    else if version = 4 then pure (stated.getD 128)
    else throw .unsupportedEncryptionVersion
  if revision < 2 ∨ 4 < revision then throw .unsupportedEncryptionRevision
  let length := max 5 (min 16 (bits.toNat / 8))
  let stringMethod ← if version = 4 then cryptMethod encrypt "StrF" else pure .rc4
  let streamMethod ← if version = 4 then cryptMethod encrypt "StmF" else pure .rc4
  let owner ← require encrypt Object.str? "O"
  let user ← require encrypt Object.str? "U"
  let permissions ← require encrypt Object.int64? "P"
  let permissions := permissions.toInt32.toUInt32
  let key := documentKey encryptMetadata revision length owner.bytes permissions id
  let (proof, compared) :=
    if revision = 2 then (passwordProof2 key, 32)
    else (passwordProof3 key id, 16)
  if user.bytes.length < compared ∨ user.bytes.take compared ≠ proof.take compared then
    throw .passwordRequired
  let key := if version = 4 then key ++ List.replicate (16 - key.length) 0 else key
  pure ⟨key, revision, permissions &&& knownPermissions, stringMethod, streamMethod⟩

/-- The data of a string, encrypted for the indirect object that contains it. -/
def encrypt? (s : Standard) (owner : Ref) (data : Bytes) : Option Bytes :=
  s.stringMethod.encrypt? owner s.key data

/-- The data of a string, decrypted with a key of the document. -/
def decrypt? (s : Standard) (owner : Ref) (key data : Bytes) : Option Bytes :=
  s.stringMethod.decrypt? owner key data

/-- The data of a stream, decrypted with a key of the document. -/
def decryptStream? (s : Standard) (owner : Ref) (key data : Bytes) : Option Bytes :=
  s.streamMethod.decrypt? owner key data

/-- The handler as a provider of decryption. -/
def toProvider (s : Standard) : Provider := ⟨s.key, s.decrypt?, s.decryptStream?⟩

end Standard

/-- The manager of a document with an encryption dictionary. Without a provider if its handler is
not the standard one or does not open. -/
def Manager.ofDict (encrypt : Dict) (id : Bytes) : Manager :=
  if encrypt.getAs? Object.name? "Filter" = some ("Standard" : Name) then
    match Standard.ofDict encrypt id with
    | .ok s => ⟨some s.toProvider⟩
    | .error _ => .unavailable
  else .unavailable

end Folio.Security
