import Mathlib
import Folio.Proofs.Cipher.AesBlock

/-!
# AES in a chain with padding

The chain hands each encrypted block on to the next one, in both directions, so it is undone block by
block. The padding completes the last block, or adds one, and its last byte says how much to remove.
Main statement: `exists_encrypt?_eq_some`, on data of any length.
-/

namespace Folio.Cipher.Aes

theorem length_encryptChain {key : Bytes} (hkey : key.length = 16) (vector : Bytes)
    (parts : List Bytes) : (encryptChain key vector parts).length = 16 * parts.length := by
  induction parts generalizing vector with
  | nil => rfl
  | cons part parts ih =>
    rw [encryptChain, List.length_append, length_encryptBlock hkey, ih, List.length_cons]
    omega

theorem decryptChain_encryptChain {key vector : Bytes} (hkey : key.length = 16)
    (hvector : vector.length = 16) {parts : List Bytes} (hparts : ∀ part ∈ parts, part.length = 16) :
    decryptChain key vector (Bytes.blocks 16 (encryptChain key vector parts)) = parts.flatten := by
  induction parts generalizing vector with
  | nil => rfl
  | cons part parts ih =>
    have hpart : part.length = vector.length := (hparts part (by simp)).trans hvector.symm
    have hmixed : (xor part vector).length = 16 := by simp [hpart, hvector]
    have hout := length_encryptBlock hkey (xor part vector)
    rw [encryptChain, Bytes.blocks_append hout (by decide), decryptChain,
      decryptBlock_encryptBlock hkey hmixed, xor_xor_cancel hpart,
      ih hout fun p hp => hparts p (List.mem_cons_of_mem _ hp), List.flatten_cons]

section Padding

/-- The number of bytes that are added to data. -/
def padding (data : Bytes) : Nat := 16 - data.length % 16

theorem padding_bounds (data : Bytes) : 1 ≤ padding data ∧ padding data ≤ 16 := by
  unfold padding
  omega

theorem pad_eq (data : Bytes) :
    pad data = data ++ List.replicate (padding data) (padding data).toUInt8 := rfl

theorem length_pad (data : Bytes) : (pad data).length = 16 * (data.length / 16 + 1) := by
  rw [pad_eq, List.length_append, List.length_replicate, padding]
  omega

theorem unpad_pad (data : Bytes) : unpad (pad data) = data := by
  obtain ⟨hpos, hle⟩ := padding_bounds data
  rw [pad_eq]
  generalize padding data = count at hpos hle
  have hvalue : count.toUInt8.toNat = count := by
    rw [Nat.toUInt8, UInt8.toNat_ofNat']
    omega
  have hlast : (data ++ List.replicate count count.toUInt8).getLast? = some count.toUInt8 := by
    rw [List.getLast?_append, List.getLast?_replicate, if_neg (by omega)]
    rfl
  have hlength : (data ++ List.replicate count count.toUInt8).length - count = data.length := by
    simp
  rw [unpad, hlast]
  simp only [hvalue, hlength, List.drop_left, List.take_left]
  rw [if_pos]
  simp [hpos, hle]

end Padding

/-- Encryption never fails on a key and a vector of 16 bytes, and decryption gives the data back. -/
theorem exists_encrypt?_eq_some {key vector : Bytes} (hkey : key.length = 16)
    (hvector : vector.length = 16) (data : Bytes) :
    ∃ e, encrypt? key vector data = some e ∧ decrypt? key e = some data := by
  obtain ⟨parts, hpad, hcount, hparts⟩ := Bytes.exists_flatten_of_length_eq _ _ (length_pad data)
  have hblocks : Bytes.blocks 16 (pad data) = parts := by
    rw [hpad, Bytes.blocks_flatten (by decide) hparts]
  have hlength := length_encryptChain hkey vector parts
  have hsplit : Bytes.splitAt? (vector ++ encryptChain key vector parts) 16 =
      some (vector, encryptChain key vector parts) := Bytes.splitAt?_eq_some.mpr ⟨hvector, rfl⟩
  have hne : (encryptChain key vector parts).isEmpty = false := by
    rw [List.isEmpty_eq_false_iff, ← List.length_pos_iff]
    omega
  refine ⟨vector ++ encryptChain key vector parts, by rw [encrypt?, if_pos ⟨hkey, hvector⟩, hblocks], ?_⟩
  rw [decrypt?, hsplit]
  simp only [Option.bind_eq_bind, Option.bind_some, hne, hlength, hkey, Nat.mul_mod_right]
  rw [decryptChain_encryptChain hkey hvector hparts, ← hpad, unpad_pad]
  simp

end Folio.Cipher.Aes
