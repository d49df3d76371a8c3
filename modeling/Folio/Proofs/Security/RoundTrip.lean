import Mathlib
import Folio.Security.Standard
import Folio.Proofs.Except
import Folio.Proofs.Cipher.AesChain
import Folio.Proofs.Cipher.Rc4

/-!
# Encrypted strings are decrypted

A handler encrypts a string with the key of the object that contains it. RC4 takes a key of any length.
AES needs 16 bytes, which the key of an object has if the key of the document is long enough; the
dictionaries that prescribe AES are of version 4, where that key is completed to 16 bytes.
Main statement: `exists_encrypt?_decrypt?_of_ofDict`, for every dictionary that is accepted.
-/

namespace Folio

namespace Digest

@[simp] theorem Md5.length_digest (message : Bytes) : (Md5.digest message).length = 16 := by
  simp [Md5.digest]

end Digest

namespace Security

@[simp] theorem length_objectKey (key : Bytes) (owner : Ref) (aes : Bool) :
    (objectKey key owner aes).length = min (key.length + 5) 16 := by
  simp [objectKey]

theorem Method.exists_encrypt?_decrypt? {m : Method} {key : Bytes}
    (hkey : m = .aes → 11 ≤ key.length) (owner : Ref) (data : Bytes) :
    ∃ e, m.encrypt? owner key data = some e ∧ m.decrypt? owner key e = some data := by
  cases m with
  | identity => exact ⟨data, rfl, rfl⟩
  | rc4 => exact ⟨_, rfl, congrArg some (Cipher.Rc4.apply_apply _ data)⟩
  | aes =>
    have hobject : (objectKey key owner true).length = 16 := by
      have := hkey rfl
      rw [length_objectKey]
      omega
    exact Cipher.Aes.exists_encrypt?_eq_some hobject (Digest.Md5.length_digest _) data

namespace Standard

/-- Only dictionaries of version 4 choose the method of strings, and their key is completed. -/
theorem rc4_or_length_key {encrypt : Dict} {id : Bytes} {s : Standard}
    (h : ofDict encrypt id = .ok s) : s.stringMethod = .rc4 ∨ 16 ≤ s.key.length := by
  unfold ofDict at h
  obtain ⟨version, -, h⟩ := Except.bind_eq_ok.mp h
  obtain ⟨revision, -, h⟩ := Except.bind_eq_ok.mp h
  by_cases hversion : version = 4
  · right
    have h1 : (4 : UInt8) ≠ 1 := by decide
    have h2 : (4 : UInt8) ≠ 2 := by decide
    simp only [hversion, h1, h2, if_true, if_false, pure_bind, Except.throw_bind, Except.bind_eq_ok,
      Except.ite_error_eq_ok, Except.pure_eq_ok] at h
    obtain ⟨-, _, -, _, -, _, -, _, -, _, -, -, rfl⟩ := h
    rw [List.length_append, List.length_replicate]
    omega
  · left
    simp only [hversion, if_false, pure_bind, Except.throw_bind] at h
    split_ifs at h
    -- versions 1 and 2, which differ in the length of the key
    all_goals
      simp only [Except.bind_eq_ok, Except.ite_error_eq_ok, Except.pure_eq_ok] at h
      obtain ⟨_, -, _, -, _, -, -, rfl⟩ := h
      rfl

theorem exists_encrypt?_decrypt?_of_ofDict {encrypt : Dict} {id : Bytes} {s : Standard}
    (h : ofDict encrypt id = .ok s) (owner : Ref) (data : Bytes) :
    ∃ e, s.encrypt? owner data = some e ∧ s.decrypt? owner s.key e = some data := by
  apply Method.exists_encrypt?_decrypt?
  intro haes
  rcases rc4_or_length_key h with hrc4 | hlength
  · cases haes.symm.trans hrc4
  · omega

/-- The key of a document with the identifier `01 02`. -/
def sampleKey : Bytes := documentKey true 2 16 passwordPadding 0xfffffffc [1, 2]

/-- A dictionary that prescribes AES for strings and leaves streams as they are. -/
def aesDict : Dict := .ofList [
  ("V", .ofInt 4), ("R", .ofInt 2), ("Length", .ofInt 128), ("P", .ofInt (-4)),
  ("O", .str ⟨.literal passwordPadding, none⟩),
  ("U", .str ⟨.literal (passwordProof2 sampleKey), none⟩),
  ("StrF", .name "StdCF"),
  ("CF", .dict (.ofList [("StdCF", .dict (.ofList [("CFM", .name "AESV2")]))]))]

/-- The handler that the dictionary describes. -/
def aesHandler : Standard where
  key := sampleKey
  revision := 2
  permissions := 0xf3c
  stringMethod := .aes
  streamMethod := .identity

theorem ofDict_aesDict : ofDict aesDict [1, 2] = .ok aesHandler := by
  have hversion : require aesDict Object.uint8? "V" = .ok 4 := rfl
  have hrevision : require aesDict Object.uint8? "R" = .ok 2 := rfl
  have hmetadata : aesDict.getAs? Object.bool? "EncryptMetadata" = none := rfl
  have hlength : aesDict.getAs? Object.uint16? "Length" = some 128 := rfl
  have hstring : cryptMethod aesDict "StrF" = .ok .aes := rfl
  have hstream : cryptMethod aesDict "StmF" = .ok .identity := rfl
  have howner : require aesDict Object.str? "O" = .ok ⟨.literal passwordPadding, none⟩ := rfl
  have huser : require aesDict Object.str? "U" = .ok ⟨.literal (passwordProof2 sampleKey), none⟩ := rfl
  have hpermissions : require aesDict Object.int64? "P" = .ok (-4) := rfl
  have hbytes (bytes : Bytes) : Str.bytes ⟨.literal bytes, none⟩ = bytes := rfl
  have hkey : documentKey true 2 (max 5 (min 16 ((128 : UInt16).toNat / 8))) passwordPadding
      (-4 : Int64).toInt32.toUInt32 [1, 2] = sampleKey := rfl
  have hcompleted : sampleKey ++ List.replicate (16 - sampleKey.length) 0 = sampleKey := by
    simp [sampleKey, documentKey]
  have hproof : (passwordProof2 sampleKey).length = 32 := by
    simp [passwordProof2, Cipher.Rc4.apply, passwordPadding]
  have hfour : ¬ (4 : UInt8) = 1 ∧ ¬ (4 : UInt8) = 2 ∧ ¬ ((2 : UInt8) < 2 ∨ (4 : UInt8) < 2) := by decide
  unfold ofDict
  simp only [hversion, hrevision, hmetadata, hlength, hstring, hstream, howner, huser, hpermissions,
    hfour, if_true, if_false, Option.getD_none, Option.getD_some, Except.ok_bind, pure_bind, hbytes, hkey,
    hproof, hcompleted, lt_self_iff_false, ne_eq, not_true_eq_false, or_self]
  rfl

/-- Data that fills a block, so that the padding is a block of its own. -/
theorem exists_encrypt?_decrypt?_aesHandler :
    ofDict aesDict [1, 2] = .ok aesHandler ∧
      ∃ e, aesHandler.encrypt? ⟨7, 0⟩ (Bytes.ofAscii "sixteen bytes ..") = some e ∧
        aesHandler.decrypt? ⟨7, 0⟩ aesHandler.key e = some (Bytes.ofAscii "sixteen bytes ..") :=
  ⟨ofDict_aesDict, exists_encrypt?_decrypt?_of_ofDict ofDict_aesDict ⟨7, 0⟩ _⟩

end Standard

end Security

end Folio
