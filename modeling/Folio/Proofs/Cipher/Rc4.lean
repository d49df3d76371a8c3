import Mathlib
import Folio.Cipher.Rc4

/-!
# RC4 is its own inverse

The sequence of bytes depends on the key and the length of the data only, and the encrypted data has
that length again.
-/

namespace Folio.Cipher.Rc4

@[simp] theorem State.length_take (count : Nat) (s : State) : (s.take count).length = count := by
  induction count generalizing s with
  | zero => rfl
  | succ count ih => simp [State.take, ih]

@[simp] theorem length_keystream (key : Bytes) (count : Nat) : (keystream key count).length = count :=
  State.length_take _ _

theorem apply_apply (key data : Bytes) : apply key (apply key data) = data := by
  have hstream := length_keystream key data.length
  simp only [apply, List.length_zipWith, hstream, Nat.min_self]
  generalize keystream key data.length = stream at hstream
  induction data generalizing stream with
  | nil => rfl
  | cons b data ih =>
    cases stream with
    | nil => cases hstream
    | cons k stream =>
      rw [List.zipWith_cons_cons, List.zipWith_cons_cons, ih _ (Nat.succ.inj hstream),
        UInt8.xor_assoc, UInt8.xor_self, UInt8.xor_zero]

end Folio.Cipher.Rc4
