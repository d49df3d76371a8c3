import Mathlib
import Folio.Cipher.Aes
import Folio.Proofs.Bytes

/-!
# AES decrypts what it encrypts, block by block

Each step of a round has an inverse: the substitution by the two tables, the rotation of the rows by
counting, the mixing of the columns because the product of bytes distributes over exclusive or.
Decryption takes the round keys in reverse order, so a run of rounds is undone from its last one.
Main statement: `decryptBlock_encryptBlock`.
-/

namespace Folio.Cipher.Aes

section Xor

@[simp] theorem length_xor (a b : Bytes) : (xor a b).length = min a.length b.length :=
  List.length_zipWith

theorem xor_cons (x y : UInt8) (a b : Bytes) : xor (x :: a) (y :: b) = (x ^^^ y) :: xor a b := rfl

/-- Exclusive or with a block of the same length is its own inverse. -/
theorem xor_xor_cancel {a b : Bytes} (h : a.length = b.length) : xor (xor a b) b = a := by
  induction a generalizing b with
  | nil => rfl
  | cons x a ih =>
    cases b with
    | nil => cases h
    | cons y b =>
      rw [xor_cons, xor_cons, ih (Nat.succ.inj h), UInt8.xor_assoc, UInt8.xor_self, UInt8.xor_zero]

end Xor

section Field

/-! The inverses of all bytes are checked on numbers, with which it is quicker to compute. -/

/-- The product of two bytes as numbers, by the lowest `count` bits of the second. -/
def mulBitsNat : Nat → Nat → Nat → Nat
  | 0, _, _ => 0
  | count + 1, a, b => (b % 2 * a) ^^^ mulBitsNat count (2 * a ^^^ a / 128 * 283) (b / 2)

/-- The product of two bytes as numbers. -/
def mulNat (a b : Nat) : Nat := mulBitsNat 8 a b

/-- The value of `f` at `n`, which a computation finds after the value of `n`, so that it takes the same
numbers to the same functions and finds their values once. -/
def withValue (n : Nat) (f : Nat → Nat) : Nat :=
  match n with
  | 0 => f 0
  | n + 1 => f (n + 1)

@[simp] theorem withValue_eq (n : Nat) (f : Nat → Nat) : withValue n f = f n := by cases n <;> rfl

/-- The inverse of a byte as a number. -/
def inverseNat (b : Nat) : Nat :=
  withValue b fun b =>
  withValue (mulNat b b) fun b2 =>
  withValue (mulNat b2 b2) fun b4 =>
  withValue (mulNat b4 b4) fun b8 =>
  withValue (mulNat b8 b8) fun b16 =>
  withValue (mulNat b16 b16) fun b32 =>
  withValue (mulNat b32 b32) fun b64 =>
  withValue (mulNat b64 b64) fun b128 =>
  [b4, b8, b16, b32, b64, b128].foldl mulNat b2

theorem toNat_double (a : UInt8) : (double a).toNat = 2 * a.toNat ^^^ a.toNat / 128 * 283 := by
  have ha := a.toNat_lt
  have hshift : (a <<< 1).toNat = 2 * a.toNat % 256 := by
    rw [UInt8.toNat_shiftLeft, Nat.shiftLeft_eq, Nat.mul_comm]
    rfl
  have hlt : a < 0x80 ↔ a.toNat < 128 := UInt8.lt_iff_toNat_lt
  unfold double
  by_cases h : a.toNat < 128
  · have hhigh : a.toNat / 128 = 0 := by omega
    rw [if_pos (hlt.mpr h), hshift, hhigh, Nat.zero_mul, Nat.xor_zero]
    omega
  · have hhigh : a.toNat / 128 = 1 := by omega
    rw [if_neg (hlt.not.mpr h), UInt8.toNat_xor, hshift, hhigh, Nat.one_mul]
    have hmod : (2 * a.toNat ^^^ 283) % 256 = 2 * a.toNat % 256 ^^^ 27 :=
      Nat.xor_mod_two_pow (n := 8)
    have hdiv : (2 * a.toNat ^^^ 283) / 256 = 0 := by
      have htop : 2 * a.toNat / 256 = 1 := by omega
      rw [show 256 = 2 ^ 8 from rfl, Nat.xor_div_two_pow, Nat.xor_eq_zero_iff]
      exact htop
    change 2 * a.toNat % 256 ^^^ 27 = _
    omega

theorem toNat_mulBits (count : Nat) (a b : UInt8) :
    (mulBits count a b).toNat = mulBitsNat count a.toNat b.toNat := by
  induction count generalizing a b with
  | zero => rfl
  | succ count ih =>
    have hbit : b % 2 = 1 ↔ b.toNat % 2 = 1 := by
      rw [← UInt8.toNat_inj]
      rfl
    have hlow : (if b % 2 = 1 then a else 0).toNat = b.toNat % 2 * a.toNat := by
      rcases Nat.mod_two_eq_zero_or_one b.toNat with hb | hb <;> simp [hbit, hb]
    rw [mulBits, mulBitsNat, UInt8.toNat_xor, hlow, ih, toNat_double, UInt8.toNat_div]
    rfl

theorem toNat_mul (a b : UInt8) : (mul a b).toNat = mulNat a.toNat b.toNat := toNat_mulBits 8 a b

theorem toNat_inverse (b : UInt8) : (inverse b).toNat = inverseNat b.toNat := by
  simp only [inverse, inverseNat, withValue_eq, List.foldl_cons, List.foldl_nil, toNat_mul]

theorem inverse_inverse (b : UInt8) : inverse (inverse b) = b := by
  have hnumbers : ∀ n < 256, inverseNat (inverseNat n) = n := by decide +kernel
  rw [← UInt8.toNat_inj, toNat_inverse, toNat_inverse, hnumbers _ b.toNat_lt]

/-- The product of two bytes distributes over exclusive or, bit by bit of the second factor. -/
theorem mulBits_xor (count : Nat) (a b c : UInt8) :
    mulBits count a (b ^^^ c) = mulBits count a b ^^^ mulBits count a c := by
  induction count generalizing a b c with
  | zero => simp [mulBits]
  | succ count ih =>
    have hmod : (b ^^^ c) % 2 = b % 2 ^^^ c % 2 := by
      simpa [← UInt8.toNat_inj] using Nat.xor_mod_two_pow (n := 1)
    have hdiv : (b ^^^ c) / 2 = b / 2 ^^^ c / 2 := by
      simpa [← UInt8.toNat_inj] using Nat.xor_div_two_pow (n := 1)
    have hbit (x : UInt8) : x % 2 = 0 ∨ x % 2 = 1 := by
      simp only [← UInt8.toNat_inj, UInt8.toNat_mod]
      exact Nat.mod_two_eq_zero_or_one _
    have hlow : (if (b ^^^ c) % 2 = 1 then a else 0) =
        (if b % 2 = 1 then a else 0) ^^^ (if c % 2 = 1 then a else 0) := by
      rw [hmod]
      rcases hbit b with hb | hb <;> rcases hbit c with hc | hc <;> simp [hb, hc]
    rw [mulBits, mulBits, mulBits, hlow, hdiv, ih]
    ac_rfl

theorem mul_xor (a b c : UInt8) : mul a (b ^^^ c) = mul a b ^^^ mul a c := mulBits_xor 8 a b c

/-- The share of one byte of a column in a byte of the column mixed by `p q r s` and back. -/
def mixedShare (p q r s x : UInt8) : UInt8 :=
  mul 14 (mul p x) ^^^ mul 11 (mul q x) ^^^ mul 13 (mul r x) ^^^ mul 9 (mul s x)

theorem mixedShare_xor (p q r s x y : UInt8) :
    mixedShare p q r s (x ^^^ y) = mixedShare p q r s x ^^^ mixedShare p q r s y := by
  simp only [mixedShare, mul_xor]
  ac_rfl

/-- Mixed there and back, a column has its own bytes at their places and no share of the others. -/
theorem mixedShare_spec (x : UInt8) : mixedShare 2 1 1 3 x = x ∧ mixedShare 3 2 1 1 x = 0 ∧
    mixedShare 1 3 2 1 x = 0 ∧ mixedShare 1 1 3 2 x = 0 := by
  have hzero (p q r s : UInt8)
      (h : Bytes.units.map (mixedShare p q r s) = Bytes.units.map fun _ => 0) :
      mixedShare p q r s x = 0 :=
    Bytes.eq_of_xor (mixedShare_xor p q r s) (fun _ _ => rfl) h x
  have hown : mixedShare 2 1 1 3 x = x :=
    Bytes.eq_of_xor (g := fun x => x) (mixedShare_xor 2 1 1 3) (fun _ _ => rfl) rfl x
  exact ⟨hown, hzero _ _ _ _ rfl, hzero _ _ _ _ rfl, hzero _ _ _ _ rfl⟩

end Field

section Substitution

@[simp] theorem length_substituteAll (t : Array UInt8) (block : Bytes) :
    (substituteAll t block).length = block.length := List.length_map _

/-- No bit of a rotated byte comes from both of its parts. -/
theorem rotate_xor (a b : UInt8) {n : UInt8} (h : n.toNat % 8 ≠ 0) :
    rotate (a ^^^ b) n = rotate a n ^^^ rotate b n := by
  unfold rotate
  rw [← UInt8.toBitVec_inj]
  ext i hi
  by_cases hlow : i < n.toNat % 8
  · simp [hlow]
  · have hout : 8 ≤ (256 - n.toNat) % 8 + i := by
      have hn := n.toNat_lt
      omega
    simp [BitVec.getLsbD_of_ge _ _ hout, hlow]

/-- The bits of a substitution, up to a constant. -/
def mixBits (b : UInt8) : UInt8 := b ^^^ rotate b 1 ^^^ rotate b 2 ^^^ rotate b 3 ^^^ rotate b 4

/-- The byte whose bits are mixed. -/
def unmixBits (b : UInt8) : UInt8 := rotate b 1 ^^^ rotate b 3 ^^^ rotate b 6

theorem mixBits_xor (a b : UInt8) : mixBits (a ^^^ b) = mixBits a ^^^ mixBits b := by
  rw [mixBits, rotate_xor a b (n := 1) (by decide), rotate_xor a b (n := 2) (by decide),
    rotate_xor a b (n := 3) (by decide), rotate_xor a b (n := 4) (by decide), mixBits, mixBits]
  ac_rfl

theorem unmixBits_xor (a b : UInt8) : unmixBits (a ^^^ b) = unmixBits a ^^^ unmixBits b := by
  rw [unmixBits, rotate_xor a b (n := 1) (by decide), rotate_xor a b (n := 3) (by decide),
    rotate_xor a b (n := 6) (by decide), unmixBits, unmixBits]
  ac_rfl

theorem unmixBits_mixBits (b : UInt8) : unmixBits (mixBits b) = b :=
  Bytes.eq_of_xor (f := fun b => unmixBits (mixBits b)) (g := fun b => b)
    (fun a b => by rw [mixBits_xor, unmixBits_xor]) (fun _ _ => rfl) rfl b

theorem substitute_injective : Function.Injective substitute := by
  intro a b h
  have hmix : mixBits (inverse a) = mixBits (inverse b) := (UInt8.xor_left_inj 0x63).mp h
  have hinverse := congrArg unmixBits hmix
  rw [unmixBits_mixBits, unmixBits_mixBits] at hinverse
  rw [← inverse_inverse a, hinverse, inverse_inverse]

theorem table_getD (b : UInt8) : table.getD b.toNat 0 = substitute b := by
  simp [table, Array.getD_eq_getD_getElem?, b.toNat_lt]

/-- Values stored at different positions of an array are found there. -/
theorem getD_foldl_setIfInBounds {f : Nat → Nat} {t : Array UInt8} {count n : Nat}
    (hsize : ∀ m < count, f m < t.size) (hf : ∀ m < count, f m = f n → m = n) (hn : n < count) :
    ((List.range count).foldl (fun t m => t.setIfInBounds (f m) m.toUInt8) t).getD (f n) 0 =
      n.toUInt8 := by
  have hkeep : ∀ count, ((List.range count).foldl
      (fun t m => t.setIfInBounds (f m) m.toUInt8) t).size = t.size := by
    intro count
    induction count with
    | zero => rfl
    | succ count ih => simp [List.range_succ, ih]
  induction count with
  | zero => cases hn
  | succ count ih =>
    rw [List.range_succ, List.foldl_append, List.foldl_cons, List.foldl_nil,
      Array.getD_eq_getD_getElem?]
    by_cases hlast : count = n
    · have hlt := hsize count (Nat.lt_succ_self count)
      rw [← hkeep count] at hlt
      rw [← hlast, Array.getElem?_setIfInBounds_self_of_lt hlt, Option.getD_some]
    · have hne : f count ≠ f n := fun h => hlast (hf count (Nat.lt_succ_self count) h)
      rw [Array.getElem?_setIfInBounds_ne hne, ← Array.getD_eq_getD_getElem?]
      exact ih (fun m hm => hsize m (Nat.lt_succ_of_lt hm)) (fun m hm => hf m (Nat.lt_succ_of_lt hm))
        (by omega)

theorem inverseTable_table (b : UInt8) :
    inverseTable.getD (table.getD b.toNat 0).toNat 0 = b := by
  have hbyte : ∀ m < 256, m.toUInt8.toNat = m := fun m hm => by
    rw [Nat.toUInt8, UInt8.toNat_ofNat']
    omega
  have hf : ∀ m < 256, (table.getD m 0).toNat = (table.getD b.toNat 0).toNat → m = b.toNat := by
    intro m hm h
    rw [← hbyte m hm, UInt8.toNat_inj, table_getD, table_getD] at h
    rw [← hbyte m hm, substitute_injective h]
  have hsize : ∀ m < 256, (table.getD m 0).toNat < (Array.replicate 256 (0 : UInt8)).size := by
    intro m _
    rw [Array.size_replicate]
    exact UInt8.toNat_lt _
  have hread := getD_foldl_setIfInBounds hsize hf b.toNat_lt
  simpa [inverseTable] using hread

theorem substituteAll_inverse (block : Bytes) :
    substituteAll inverseTable (substituteAll table block) = block := by
  simp only [substituteAll, List.map_map, Function.comp_def, inverseTable_table, List.map_id']

end Substitution

section Rows

@[simp] theorem length_shiftRows (columns : Nat) (block : Bytes) :
    (shiftRows columns block).length = 16 := by
  simp [shiftRows]

/-- The rows have four columns, so one column further and then three is once around. -/
theorem shiftRows_three_one {block : Bytes} (h : block.length = 16) :
    shiftRows 3 (shiftRows 1 block) = block :=
  match block, h with
  | [_, _, _, _, _, _, _, _, _, _, _, _, _, _, _, _], _ => rfl

end Rows

section Columns

/-- A row of the inverse matrix takes its own byte out of a mixed column. -/
theorem mul_matrix (a b c d : UInt8) :
    mul 14 (mul 2 a ^^^ mul 3 b ^^^ mul 1 c ^^^ mul 1 d) ^^^
      mul 11 (mul 1 a ^^^ mul 2 b ^^^ mul 3 c ^^^ mul 1 d) ^^^
      mul 13 (mul 1 a ^^^ mul 1 b ^^^ mul 2 c ^^^ mul 3 d) ^^^
      mul 9 (mul 3 a ^^^ mul 1 b ^^^ mul 1 c ^^^ mul 2 d) = a := by
  have hcollect :
      mul 14 (mul 2 a ^^^ mul 3 b ^^^ mul 1 c ^^^ mul 1 d) ^^^
        mul 11 (mul 1 a ^^^ mul 2 b ^^^ mul 3 c ^^^ mul 1 d) ^^^
        mul 13 (mul 1 a ^^^ mul 1 b ^^^ mul 2 c ^^^ mul 3 d) ^^^
        mul 9 (mul 3 a ^^^ mul 1 b ^^^ mul 1 c ^^^ mul 2 d) =
      mixedShare 2 1 1 3 a ^^^ mixedShare 3 2 1 1 b ^^^ mixedShare 1 3 2 1 c ^^^
        mixedShare 1 1 3 2 d := by
    simp only [mixedShare, mul_xor]
    ac_rfl
  obtain ⟨ha, -⟩ := mixedShare_spec a
  obtain ⟨-, hb, -⟩ := mixedShare_spec b
  obtain ⟨-, -, hc, -⟩ := mixedShare_spec c
  obtain ⟨-, -, -, hd⟩ := mixedShare_spec d
  rw [hcollect, ha, hb, hc, hd]
  simp

theorem mixColumn_eq (p q r s a b c d : UInt8) :
    mixColumn [p, q, r, s] [a, b, c, d] =
      [0 ^^^ mul p a ^^^ mul q b ^^^ mul r c ^^^ mul s d,
        0 ^^^ mul s a ^^^ mul p b ^^^ mul q c ^^^ mul r d,
        0 ^^^ mul r a ^^^ mul s b ^^^ mul p c ^^^ mul q d,
        0 ^^^ mul q a ^^^ mul r b ^^^ mul s c ^^^ mul p d] := rfl

@[simp] theorem length_mixColumn (row column : Bytes) : (mixColumn row column).length = 4 := by
  simp [mixColumn]

theorem mixColumn_mixColumn {column : Bytes} (h : column.length = 4) :
    mixColumn [14, 11, 13, 9] (mixColumn [2, 3, 1, 1] column) = column := by
  match column, h with
  | [a, b, c, d], _ =>
    simp only [mixColumn_eq, UInt8.zero_xor]
    congr 1
    · exact mul_matrix a b c d
    congr 1
    · exact Eq.trans (by ac_rfl) (mul_matrix b c d a)
    congr 1
    · exact Eq.trans (by ac_rfl) (mul_matrix c d a b)
    congr 1
    · exact Eq.trans (by ac_rfl) (mul_matrix d a b c)

theorem mixColumns_flatten (row : Bytes) {columns : List Bytes}
    (h : ∀ column ∈ columns, column.length = 4) :
    mixColumns row columns.flatten = (columns.map (mixColumn row)).flatten := by
  rw [mixColumns, Bytes.blocks_flatten (by decide) h, List.flatMap_def]

theorem length_mixColumns (row : Bytes) {block : Bytes} (h : block.length = 16) :
    (mixColumns row block).length = 16 := by
  obtain ⟨columns, rfl, hcount, hcolumns⟩ := Bytes.exists_flatten_of_length_eq 4 4 h
  rw [mixColumns_flatten row hcolumns]
  simp [hcount, Function.comp_def]

theorem mixColumns_mixColumns {block : Bytes} (h : block.length = 16) :
    mixColumns [14, 11, 13, 9] (mixColumns [2, 3, 1, 1] block) = block := by
  obtain ⟨columns, rfl, -, hcolumns⟩ := Bytes.exists_flatten_of_length_eq 4 4 h
  have hid : columns.map (mixColumn [14, 11, 13, 9] ∘ mixColumn [2, 3, 1, 1]) = columns.map id :=
    List.map_congr_left fun column hcolumn => mixColumn_mixColumn (hcolumns column hcolumn)
  rw [mixColumns_flatten _ hcolumns, mixColumns_flatten _ (by simp), List.map_map, hid, List.map_id]

end Columns

section Rounds

/-- One round of the encryption, apart from the last. -/
def round (s key : Bytes) : Bytes :=
  xor (mixColumns [2, 3, 1, 1] (shiftRows 1 (substituteAll table s))) key

/-- What a round does before it mixes the columns, undone. -/
def undo (s : Bytes) : Bytes := substituteAll inverseTable (shiftRows 3 s)

/-- One round of the decryption, apart from the last. -/
def unround (s key : Bytes) : Bytes := mixColumns [14, 11, 13, 9] (xor (undo s) key)

variable {s key : Bytes}

theorem length_round (hkey : key.length = 16) : (round s key).length = 16 := by
  rw [round, length_xor, length_mixColumns _ (length_shiftRows _ _), hkey]
  rfl

theorem undo_shiftRows (hs : s.length = 16) : undo (shiftRows 1 (substituteAll table s)) = s := by
  rw [undo, shiftRows_three_one (by simpa using hs), substituteAll_inverse]

/-- The decryption keeps its state one half of a round behind: it holds the substituted and shifted
block. -/
theorem unround_round (hkey : key.length = 16) :
    unround (shiftRows 1 (substituteAll table (round s key))) key =
      shiftRows 1 (substituteAll table s) := by
  have hmixed := length_mixColumns [2, 3, 1, 1] (length_shiftRows 1 (substituteAll table s))
  rw [unround, undo_shiftRows (length_round hkey), round, xor_xor_cancel (hmixed.trans hkey.symm),
    mixColumns_mixColumns (length_shiftRows _ _)]

/-- A run of rounds is undone by the same keys in reverse order. -/
theorem foldl_unround_foldl_round {keys : List Bytes} (hkeys : ∀ key ∈ keys, key.length = 16) :
    keys.reverse.foldl unround (shiftRows 1 (substituteAll table (keys.foldl round s))) =
      shiftRows 1 (substituteAll table s) := by
  induction keys generalizing s with
  | nil => rfl
  | cons key keys ih =>
    rw [List.foldl_cons, List.reverse_cons, List.foldl_append,
      ih fun k hk => hkeys k (List.mem_cons_of_mem _ hk)]
    exact unround_round (hkeys key (by simp))

end Rounds

section Keys

/-- Each word of the expansion is made of the word before it and a word of the key. -/
theorem length_foldl_words {words : List Bytes} (hwords : ∀ word ∈ words, word.length = 4)
    (out : Bytes) {previous : Bytes} (hprevious : previous.length = 4) :
    (words.foldl (fun (out, previous) word =>
      let word := xor previous word
      (out ++ word, word)) (out, previous)).1.length = out.length + 4 * words.length := by
  induction words generalizing out previous with
  | nil => rfl
  | cons word words ih =>
    have hword : (xor previous word).length = 4 := by simp [hprevious, hwords word (by simp)]
    rw [List.foldl_cons, ih (fun w hw => hwords w (List.mem_cons_of_mem _ hw)) _ hword,
      List.length_append, hword, List.length_cons]
    omega

theorem length_nextRoundKey {key : Bytes} (constant : UInt8) (h : key.length = 16) :
    (nextRoundKey constant key).length = 16 := by
  obtain ⟨words, rfl, hcount, hwords⟩ := Bytes.exists_flatten_of_length_eq 4 4 h
  have hlast : (words.getLastD []).length = 4 := by
    obtain ⟨initial, last, rfl⟩ :=
      (List.eq_nil_or_concat words).resolve_left (by rintro rfl; cases hcount)
    simpa using hwords last (by simp)
  rw [nextRoundKey, Bytes.blocks_flatten (by decide) hwords, length_foldl_words hwords, hcount]
  · rfl
  · rw [length_xor, length_substituteAll, List.length_append, List.length_drop, List.length_take, hlast]
    rfl

theorem length_of_mem_expandKey (count : Nat) (constant : UInt8) {key : Bytes}
    (h : key.length = 16) : ∀ k ∈ expandKey count constant key, k.length = 16 := by
  induction count generalizing constant key with
  | zero => simp [expandKey]
  | succ count ih =>
    have hnext := length_nextRoundKey constant h
    simpa [expandKey, hnext] using ih _ hnext

/-- The last round key is set apart, because the last round does not mix the columns. -/
theorem roundKeys_eq {key : Bytes} (h : key.length = 16) :
    ∃ (middle : List Bytes) (last : Bytes), roundKeys key = key :: (middle ++ [last]) ∧
      (∀ k ∈ middle, k.length = 16) ∧ last.length = 16 := by
  have hlength := length_of_mem_expandKey 10 1 h
  obtain ⟨middle, last, heq⟩ :=
    (List.eq_nil_or_concat (expandKey 10 1 key)).resolve_left (List.cons_ne_nil _ _)
  rw [List.concat_eq_append] at heq
  rw [heq] at hlength
  refine ⟨middle, last, by rw [roundKeys, heq], fun k hk => ?_, hlength last (by simp)⟩
  exact hlength k (by simp [hk])

end Keys

section Block

variable {key block : Bytes} {middle : List Bytes} {last : Bytes}

theorem encryptBlock_eq (h : roundKeys key = key :: (middle ++ [last])) :
    encryptBlock key block =
      xor (shiftRows 1 (substituteAll table (middle.foldl round (xor block key)))) last := by
  rw [encryptBlock, h]
  simp only [List.dropLast_concat, List.getLastD_concat]
  rfl

theorem decryptBlock_eq (h : roundKeys key = key :: (middle ++ [last])) :
    decryptBlock key block =
      xor (undo (middle.reverse.foldl unround (xor block last))) key := by
  rw [decryptBlock, h]
  simp only [List.reverse_cons, List.reverse_append, List.reverse_nil, List.nil_append,
    List.cons_append, List.dropLast_concat, List.getLastD_concat]
  rfl

theorem length_encryptBlock (hkey : key.length = 16) (block : Bytes) :
    (encryptBlock key block).length = 16 := by
  obtain ⟨middle, last, hkeys, -, hlast⟩ := roundKeys_eq hkey
  simp [encryptBlock_eq hkeys, hlast]

theorem decryptBlock_encryptBlock (hkey : key.length = 16) (hblock : block.length = 16) :
    decryptBlock key (encryptBlock key block) = block := by
  obtain ⟨middle, last, hkeys, hmiddle, hlast⟩ := roundKeys_eq hkey
  have hstart : (xor block key).length = 16 := by simp [hblock, hkey]
  rw [encryptBlock_eq hkeys, decryptBlock_eq hkeys, xor_xor_cancel (by simp [hlast]),
    foldl_unround_foldl_round hmiddle, undo_shiftRows hstart,
    xor_xor_cancel (hblock.trans hkey.symm)]

end Block

end Folio.Cipher.Aes
