import Mathlib
import Folio.Bytes

/-!
# Numbers in byte strings

Main statements: a number is read back from its base-256 digits, digits are determined by their number,
taking bytes off the front of some data is undone by appending, data made of blocks of one length is
cut into these blocks, and a function that distributes over exclusive or is given by its values at single
bits.
-/

namespace Folio.Bytes

@[simp] theorem length_ofNatBE (count n : Nat) : (ofNatBE count n).length = count := by
  induction count generalizing n with
  | zero => rfl
  | succ count ih => simp [ofNatBE, ih]

theorem toNatBE_append_singleton (bytes : Bytes) (b : UInt8) :
    toNatBE (bytes ++ [b]) = toNatBE bytes * 256 + b.toNat := by
  simp [toNatBE, List.foldl_append]

/-- Only the lowest digits of a number are written. -/
theorem toNatBE_ofNatBE_mod (count n : Nat) : toNatBE (ofNatBE count n) = n % 256 ^ count := by
  induction count generalizing n with
  | zero => simp [ofNatBE, toNatBE, Nat.mod_one]
  | succ count ih =>
    have hlow : n.toUInt8.toNat = n % 256 := UInt8.toNat_ofNat'
    rw [ofNatBE, toNatBE_append_singleton, ih, hlow, pow_succ', Nat.mod_mul]
    ring

theorem toNatBE_ofNatBE {count n : Nat} (h : n < 256 ^ count) : toNatBE (ofNatBE count n) = n := by
  rw [toNatBE_ofNatBE_mod, Nat.mod_eq_of_lt h]

/-- The highest digits come first. -/
theorem ofNatBE_add (high : Nat) {low m n : Nat} (h : n < 256 ^ low) :
    ofNatBE (high + low) (m * 256 ^ low + n) = ofNatBE high m ++ ofNatBE low n := by
  induction low generalizing n with
  | zero =>
    obtain rfl : n = 0 := Nat.lt_one_iff.mp h
    simp [ofNatBE]
  | succ low ih =>
    rw [pow_succ] at h
    have hdiv : (m * 256 ^ (low + 1) + n) / 256 = m * 256 ^ low + n / 256 := by
      rw [pow_succ, ← Nat.mul_assoc]
      omega
    have hlow : (m * 256 ^ (low + 1) + n).toUInt8 = n.toUInt8 := by
      apply UInt8.toNat_inj.mp
      simp only [pow_succ, ← Nat.mul_assoc, Nat.toUInt8, UInt8.toNat_ofNat']
      omega
    rw [← Nat.add_assoc, ofNatBE, hdiv, hlow, ih (by omega), ofNatBE, List.append_assoc]

theorem take_ofNatBE (high low n : Nat) :
    (ofNatBE (high + low) n).take high = ofNatBE high (n / 256 ^ low) := by
  have hlow : n % 256 ^ low < 256 ^ low := Nat.mod_lt _ (Nat.pow_pos (by decide))
  have hsplit := ofNatBE_add high (m := n / 256 ^ low) hlow
  rw [Nat.div_add_mod'] at hsplit
  rw [hsplit, List.take_left' (length_ofNatBE _ _)]

theorem toNatBE_append_replicate (bytes : Bytes) (count : Nat) :
    toNatBE (bytes ++ List.replicate count 0) = toNatBE bytes * 256 ^ count := by
  induction count with
  | zero => simp
  | succ count ih =>
    rw [List.replicate_succ', ← List.append_assoc, toNatBE_append_singleton, ih, pow_succ, Nat.mul_assoc]
    rfl

theorem toNatBE_lt (bytes : Bytes) : toNatBE bytes < 256 ^ bytes.length := by
  induction bytes using List.reverseRecOn with
  | nil => exact Nat.one_pos
  | append_singleton bytes b ih =>
    have hb := b.toNat_lt
    rw [toNatBE_append_singleton, List.length_append, List.length_singleton, pow_succ]
    omega

theorem ofNatBE_toNatBE (bytes : Bytes) : ofNatBE bytes.length (toNatBE bytes) = bytes := by
  induction bytes using List.reverseRecOn with
  | nil => rfl
  | append_singleton bytes b ih =>
    have hb := b.toNat_lt
    have hhigh : (toNatBE bytes * 256 + b.toNat) / 256 = toNatBE bytes := by omega
    have hlow : (toNatBE bytes * 256 + b.toNat).toUInt8 = b := by
      apply UInt8.toNat_inj.mp
      rw [Nat.toUInt8, UInt8.toNat_ofNat']
      omega
    rw [List.length_append, List.length_singleton, toNatBE_append_singleton, ofNatBE, hhigh, ih, hlow]

theorem splitAt?_eq_some {data taken rest : Bytes} {count : Nat} :
    splitAt? data count = some (taken, rest) ↔ taken.length = count ∧ data = taken ++ rest := by
  unfold splitAt?
  constructor
  · intro h
    split at h
    · rename_i hle
      rw [List.splitAt_eq, Option.some.injEq, Prod.mk.injEq] at h
      obtain ⟨rfl, rfl⟩ := h
      exact ⟨List.length_take_of_le hle, (List.take_append_drop count data).symm⟩
    · cases h
  · rintro ⟨rfl, rfl⟩
    simp

/-- Bytes at the end stay in the rest. -/
theorem splitAt?_append {data taken rest : Bytes} {count : Nat} (h : splitAt? data count = some (taken, rest))
    (after : Bytes) : splitAt? (data ++ after) count = some (taken, rest ++ after) := by
  obtain ⟨hlength, rfl⟩ := splitAt?_eq_some.mp h
  exact splitAt?_eq_some.mpr ⟨hlength, List.append_assoc taken rest after⟩

theorem dropTag?_append (tag rest : Bytes) : dropTag? tag (tag ++ rest) = some rest := by
  induction tag with
  | nil => cases rest <;> rfl
  | cons b tag ih => simp [dropTag?, ih]

theorem dropTag?_eq_some {tag data rest : Bytes} : dropTag? tag data = some rest ↔ data = tag ++ rest := by
  constructor
  · intro h
    induction tag generalizing data with
    | nil =>
      cases h
      rfl
    | cons t tag ih =>
      cases data with
      | nil => cases h
      | cons b data =>
        rw [dropTag?] at h
        split at h
        · rename_i hfirst
          rw [ih h, hfirst, List.cons_append]
        · cases h
  · rintro rfl
    exact dropTag?_append tag rest

theorem dropTag?_eq_none {tag data : Bytes} (h : ∀ rest, data ≠ tag ++ rest) : dropTag? tag data = none :=
  Option.eq_none_iff_forall_ne_some.mpr fun rest hdrop => h rest (dropTag?_eq_some.mp hdrop)

theorem eq_append_of_cutAtTag? {tag data before rest : Bytes} (h : cutAtTag? tag data = some (before, rest)) :
    data = before ++ tag ++ rest := by
  induction data generalizing before with
  | nil =>
    obtain ⟨_, hdrop, hrest⟩ := Option.map_eq_some_iff.mp h
    cases hrest
    exact dropTag?_eq_some.mp hdrop
  | cons b data ih =>
    rw [cutAtTag?] at h
    split at h
    · rename_i hdrop
      cases h
      exact dropTag?_eq_some.mp hdrop
    · obtain ⟨_, hcut, hrest⟩ := Option.map_eq_some_iff.mp h
      cases hrest
      rw [ih hcut]
      rfl

@[simp] theorem length_ofNatLE (count n : Nat) : (ofNatLE count n).length = count := by
  induction count generalizing n with
  | zero => rfl
  | succ count ih => simp [ofNatLE, ih]

/-- The fuel of `blocks` beyond the length of the data is not used. -/
theorem blocks_go_of_length_le {size fuel more : Nat} {data : Bytes} (hsize : 0 < size)
    (h : data.length ≤ fuel) : blocks.go size (fuel + more) data = blocks.go size fuel data := by
  induction fuel generalizing data with
  | zero =>
    obtain rfl := List.eq_nil_of_length_eq_zero (Nat.le_zero.mp h)
    cases more <;> simp [blocks.go]
  | succ fuel ih =>
    rw [Nat.add_right_comm, blocks.go, blocks.go]
    cases data with
    | nil => rfl
    | cons b data => rw [ih (by grind)]

theorem blocks_append {size : Nat} {block rest : Bytes} (hblock : block.length = size)
    (hsize : 0 < size) : blocks size (block ++ rest) = block :: blocks size rest := by
  obtain ⟨more, hmore⟩ : ∃ more, size = more + 1 := ⟨size - 1, by omega⟩
  have hne : (block ++ rest).isEmpty = false := by
    cases block with
    | nil => simp at hblock; omega
    | cons => rfl
  have hfuel : (block ++ rest).length = rest.length + more + 1 := by
    rw [List.length_append]
    omega
  rw [blocks, hfuel, blocks.go, hne, List.take_left' hblock, List.drop_left' hblock, blocks,
    blocks_go_of_length_le hsize le_rfl]
  rfl

theorem blocks_flatten {size : Nat} (hsize : 0 < size) {parts : List Bytes}
    (h : ∀ part ∈ parts, part.length = size) : blocks size parts.flatten = parts := by
  induction parts with
  | nil => rfl
  | cons part parts ih =>
    rw [List.flatten_cons, blocks_append (h part (by simp)) hsize,
      ih fun part hpart => h part (List.mem_cons_of_mem _ hpart)]

/-- A shorter remainder after blocks of one length is a block of its own, if there is one. -/
theorem blocks_flatten_append {size : Nat} (hsize : 0 < size) {parts : List Bytes} {rest : Bytes}
    (h : ∀ part ∈ parts, part.length = size) (hrest : rest.length ≤ size) :
    blocks size (parts.flatten ++ rest) = parts ++ if rest = [] then [] else [rest] := by
  induction parts with
  | nil =>
    cases rest with
    | nil => rfl
    | cons b rest =>
      have hdrop : (b :: rest).drop size = [] := List.drop_eq_nil_of_le hrest
      rw [List.flatten_nil, List.nil_append, List.nil_append, if_neg (List.cons_ne_nil b rest),
        blocks, List.length_cons, blocks.go, List.isEmpty_cons, if_neg Bool.false_ne_true, hdrop,
        List.take_of_length_le hrest]
      cases rest.length <;> rfl
  | cons part parts ih =>
    rw [List.flatten_cons, List.append_assoc, blocks_append (h part (by simp)) hsize,
      ih fun part hpart => h part (List.mem_cons_of_mem _ hpart), List.cons_append]

/-- A shorter remainder after complete blocks is dropped. -/
theorem exactBlocks_flatten_append {size : Nat} {parts : List Bytes} {rest : Bytes}
    (h : ∀ part ∈ parts, part.length = size) (hrest : rest.length < size) :
    exactBlocks size (parts.flatten ++ rest) = parts := by
  have hparts : parts.filter (·.length = size) = parts :=
    List.filter_eq_self.mpr fun part hpart => by simpa using h part hpart
  rw [exactBlocks, blocks_flatten_append (by omega) h hrest.le, List.filter_append, hparts]
  split
  · exact List.append_nil parts
  · have hshort : [rest].filter (·.length = size) = [] := by simp [hrest.ne]
    rw [hshort, List.append_nil]

/-- Data whose length is a multiple of `size` is made of blocks of that length. -/
theorem exists_flatten_of_length_eq (size count : Nat) {data : Bytes}
    (h : data.length = size * count) :
    ∃ parts : List Bytes, data = parts.flatten ∧ parts.length = count ∧
      ∀ part ∈ parts, part.length = size := by
  induction count generalizing data with
  | zero => exact ⟨[], by simpa using h, rfl, by simp⟩
  | succ count ih =>
    rw [Nat.mul_succ] at h
    have hrest : (data.drop size).length = size * count := by
      rw [List.length_drop]
      omega
    obtain ⟨parts, hdata, hcount, hparts⟩ := ih hrest
    have hfirst : (data.take size).length = size := List.length_take_of_le (by omega)
    refine ⟨data.take size :: parts, ?_, by simp [hcount], by simpa [hfirst] using hparts⟩
    rw [List.flatten_cons, ← hdata, List.take_append_drop]

/-- All data are made of blocks of one length and a shorter remainder. -/
theorem exists_flatten_append {size : Nat} (hsize : 0 < size) (data : Bytes) :
    ∃ (parts : List Bytes) (rest : Bytes), data = parts.flatten ++ rest ∧
      (∀ part ∈ parts, part.length = size) ∧ rest.length < size := by
  have hwhole : (data.take (size * (data.length / size))).length = size * (data.length / size) :=
    List.length_take_of_le (Nat.mul_div_le _ _)
  obtain ⟨parts, hdata, -, hparts⟩ := exists_flatten_of_length_eq size _ hwhole
  refine ⟨parts, data.drop (size * (data.length / size)), ?_, hparts, ?_⟩
  · rw [← hdata, List.take_append_drop]
  · rw [List.length_drop]
    have hmod := Nat.mod_add_div data.length size
    have hlt := Nat.mod_lt data.length hsize
    omega

theorem blocks_of_ne_nil {size : Nat} {data : Bytes} (hsize : 0 < size) (h : data ≠ []) :
    blocks size data = data.take size :: blocks size (data.drop size) := by
  obtain ⟨b, rest, rfl⟩ := List.exists_cons_of_ne_nil h
  have hfuel : (b :: rest).length = ((b :: rest).drop size).length + (rest.length - ((b :: rest).drop size).length) + 1 := by
    rw [List.length_drop, List.length_cons]
    omega
  rw [blocks, hfuel, blocks.go, List.isEmpty_cons, if_neg Bool.false_ne_true, blocks_go_of_length_le hsize le_rfl]
  rfl

/-- What a function makes of the blocks of some data, all of one length, at a place. -/
theorem getD_flatMap_blocks {α : Type} {size count x : Nat} {f : Bytes → List α} {d : α}
    (hsize : 0 < size) (hlen : ∀ block, (f block).length = count) (hempty : (f []).getD x d = d)
    (hx : x < count) (data : Bytes) (y : Nat) :
    ((blocks size data).flatMap f).getD (y * count + x) d =
      (f ((data.drop (y * size)).take size)).getD x d := by
  induction y generalizing data with
  | zero =>
    rw [Nat.zero_mul, Nat.zero_mul, Nat.zero_add, List.drop_zero]
    by_cases h : data = []
    · rw [h, List.take_nil, hempty]
      rfl
    · rw [blocks_of_ne_nil hsize h, List.flatMap_cons, List.getD_append _ _ _ _ (by rw [hlen]; exact hx)]
  | succ y ih =>
    by_cases h : data = []
    · rw [h, List.drop_nil, List.take_nil, hempty]
      rfl
    · have hindex : (y + 1) * count + x - count = y * count + x := by
        rw [Nat.succ_mul]
        omega
      have hle : count ≤ (y + 1) * count + x := by
        rw [Nat.succ_mul]
        omega
      have hplace : (data.drop size).drop (y * size) = data.drop ((y + 1) * size) := by
        rw [List.drop_drop, Nat.succ_mul, Nat.add_comm]
      rw [blocks_of_ne_nil hsize h, List.flatMap_cons, List.getD_append_right _ _ _ _ (by rw [hlen]; exact hle), hlen,
        hindex, ih, hplace]

theorem getElem?_of_flatten {size k : Nat} {parts : List Bytes} (h : ∀ part ∈ parts, part.length = size)
    (hk : k < parts.length) : parts[k]? = some ((parts.flatten.drop (k * size)).take size) := by
  induction parts generalizing k with
  | nil => cases hk
  | cons part parts ih =>
    obtain ⟨hpart, hrest⟩ := List.forall_mem_cons.mp h
    rw [List.flatten_cons]
    cases k with
    | zero => rw [Nat.zero_mul, List.drop_zero, List.take_left' hpart, List.getElem?_cons_zero]
    | succ k =>
      rw [Nat.succ_mul, Nat.add_comm (k * size), ← List.drop_drop, List.drop_left' hpart, List.getElem?_cons_succ]
      exact ih hrest (Nat.lt_of_succ_lt_succ hk)

/-- The blocks of data that have no remainder. -/
theorem getElem?_exactBlocks {size count k : Nat} (hsize : 0 < size) {data : Bytes}
    (h : data.length = size * count) (hk : k < count) :
    (exactBlocks size data)[k]? = some ((data.drop (k * size)).take size) := by
  obtain ⟨parts, rfl, rfl, hparts⟩ := exists_flatten_of_length_eq size count h
  have hblocks : exactBlocks size (parts.flatten ++ []) = parts :=
    exactBlocks_flatten_append hparts hsize
  rw [List.append_nil] at hblocks
  rw [hblocks]
  exact getElem?_of_flatten hparts hk

/-- A byte is given by its two hexadecimal digits. -/
theorem hexValue?_hexDigit (b : UInt8) : hexValue? (hexDigit (b / 16)) = some (b / 16) ∧
    hexValue? (hexDigit (b % 16)) = some (b % 16) ∧ b / 16 * 16 + b % 16 = b := by
  revert b
  decide +kernel

/-- The bytes with a single bit. -/
def units : Bytes := [1, 2, 4, 8, 16, 32, 64, 128]

/-- Two functions that distribute over exclusive or are equal if they agree on single bits. -/
theorem eq_of_xor {f g : UInt8 → UInt8} (hf : ∀ a b, f (a ^^^ b) = f a ^^^ f b)
    (hg : ∀ a b, g (a ^^^ b) = g a ^^^ g b) (h : units.map f = units.map g) (b : UInt8) : f b = g b := by
  have hzero : f 0 = g 0 := by
    have hf0 := hf 0 0
    have hg0 := hg 0 0
    rw [UInt8.xor_self, UInt8.xor_self] at hf0 hg0
    rw [hf0, hg0]
  have hsum : ∀ bits : Bytes, (∀ u ∈ bits, f u = g u) →
      f (bits.foldr (· ^^^ ·) 0) = g (bits.foldr (· ^^^ ·) 0) := by
    intro bits hbits
    induction bits with
    | nil => exact hzero
    | cons u bits ih =>
      obtain ⟨hu, hbits⟩ := List.forall_mem_cons.mp hbits
      rw [List.foldr_cons, hf, hg, hu, ih hbits]
  have hbits : ∀ b : UInt8, (units.filter fun u => b &&& u != 0).foldr (· ^^^ ·) 0 = b := by
    decide +kernel
  rw [← hbits b]
  exact hsum _ fun u hu => List.map_inj_left.mp h u (List.mem_of_mem_filter hu)

end Folio.Bytes
