import Folio.Filter.Ascii
import Folio.Proofs.Bytes

/-!
# Writing data as printable characters

Main statements: `AsciiHex.decode?_append` and `Ascii85.decode?_append`. Data is read back from each of its
texts, with white space anywhere in it and anything after its end.
-/

namespace Folio

open Syntax

variable {data digits symbols body : Bytes}

namespace Filter

/-- Whether a text consists of some symbols with white space anywhere between them. -/
def Interspersed (symbols text : Bytes) : Prop := text.filter (fun b => !isWhiteSpace b) = symbols

theorem Interspersed.mem (h : Interspersed symbols body) {b : UInt8} (hb : b ∈ body) :
    isWhiteSpace b = true ∨ b ∈ symbols := by
  cases hspace : isWhiteSpace b with
  | true => exact .inl rfl
  | false =>
    refine .inr ?_
    rw [← h]
    exact List.mem_filter.mpr ⟨hb, by simp [hspace]⟩

theorem interspersed_self (h : ∀ b ∈ symbols, isWhiteSpace b = false) : Interspersed symbols symbols :=
  List.filter_eq_self.mpr fun b hb => by simp [h b hb]

/-! ## Hexadecimal digits -/

namespace AsciiHex

/-- The digits of some bytes, in either case. A zero at the end may be left out. -/
inductive Digits : Bytes → Bytes → Prop
  | nil : Digits [] []
  | half {high h : UInt8} : Bytes.hexValue? high = some h → Digits [h * 16] [high]
  | cons {high low h l : UInt8} {data digits : Bytes} :
    Bytes.hexValue? high = some h → Bytes.hexValue? low = some l → Digits data digits →
      Digits ((h * 16 + l) :: data) (high :: low :: digits)

theorem isHexDigit_of_hexValue? {b value : UInt8} (h : Bytes.hexValue? b = some value) :
    isHexDigit b = true := by
  rw [isHexDigit, h]
  rfl

theorem Digits.isHexDigit_of_mem (h : Digits data digits) : ∀ b ∈ digits, isHexDigit b = true := by
  induction h with
  | nil => simp
  | half hhigh => simp [isHexDigit_of_hexValue? hhigh]
  | cons hhigh hlow _ ih =>
    simp only [List.forall_mem_cons]
    exact ⟨isHexDigit_of_hexValue? hhigh, isHexDigit_of_hexValue? hlow, ih⟩

theorem Digits.not_isWhiteSpace (h : Digits data digits) {b : UInt8} (hb : b ∈ digits) :
    isWhiteSpace b = false := by
  have hclass : ∀ b : UInt8, isHexDigit b = true → isWhiteSpace b = false := by decide +kernel
  exact hclass b (h.isHexDigit_of_mem b hb)

theorem Digits.ofHexPairs_eq (h : Digits data digits) :
    Bytes.ofHexPairs (Str.padToByte digits) = data := by
  induction h with
  | nil => rfl
  | @half high h hhigh =>
    have hzero : Bytes.hexValue? 48 = some 0 := by decide
    simp [Str.padToByte, Bytes.ofHexPairs, hhigh, hzero]
  | @cons high low h l data digits hhigh hlow _ ih =>
    have hpad : Str.padToByte (high :: low :: digits) = high :: low :: Str.padToByte digits := by
      simp only [Str.padToByte, List.length_cons, Nat.add_assoc, Nat.add_mod_right]
      split <;> rfl
    rw [hpad, Bytes.ofHexPairs, ih, hhigh, hlow]
    rfl

theorem digits_toHex (data : Bytes) : Digits data data.toHex := by
  induction data with
  | nil => exact .nil
  | cons b data ih =>
    obtain ⟨hhigh, hlow, hvalue⟩ := Bytes.hexValue?_hexDigit b
    have h := Digits.cons hhigh hlow ih
    rwa [hvalue] at h

theorem decode?_append (h : Digits data digits) (hbody : Interspersed digits body) (after : Bytes) :
    decode? (body ++ 62 :: after) = some data := by
  have hclass : ∀ b : UInt8, isWhiteSpace b = true ∨ isHexDigit b = true →
      (b ≠ 62 ∧ isHexText b = true) ∧ (isWhiteSpace b = true → isHexDigit b = false) := by
    decide +kernel
  have hmem : ∀ b ∈ body, isWhiteSpace b = true ∨ isHexDigit b = true :=
    fun b hb => (hbody.mem hb).imp_right (h.isHexDigit_of_mem b)
  have htext : (body ++ 62 :: after).takeWhile (· ≠ 62) = body := by
    rw [List.takeWhile_append_of_pos fun b hb => by simpa using (hclass b (hmem b hb)).1.1]
    simp
  have hall : body.all isHexText = true :=
    List.all_eq_true.mpr fun b hb => (hclass b (hmem b hb)).1.2
  have hdigits : body.filter isHexDigit = digits := by
    rw [← hbody]
    refine List.filter_congr fun b hb => ?_
    cases hspace : isWhiteSpace b with
    | true => exact (hclass b (hmem b hb)).2 hspace
    | false => exact (hmem b hb).resolve_left (by simp [hspace])
  simp only [decode?, htext, hall, if_true, hdigits, h.ofHexPairs_eq]

end AsciiHex

/-! ## Digits in base 85 -/

namespace Ascii85

/-- The last `count` digits of a number in base 85, highest first. -/
def digits85 : Nat → Nat → Bytes
  | 0, _ => []
  | count + 1, n => digits85 count (n / 85) ++ [(n % 85).toUInt8]

/-- The number with some digits in base 85. -/
def value (digits : Bytes) : Nat := digits.foldl (fun n d => n * 85 + d.toNat) 0

@[simp] theorem length_digits85 (count n : Nat) : (digits85 count n).length = count := by
  induction count generalizing n with
  | zero => rfl
  | succ count ih => simp [digits85, ih]

theorem lt_of_mem_digits85 {count n : Nat} : ∀ d ∈ digits85 count n, d < 85 := by
  induction count generalizing n with
  | zero => simp [digits85]
  | succ count ih =>
    intro d hd
    rcases List.mem_append.mp hd with hd | hd
    · exact ih d hd
    · obtain rfl := List.mem_singleton.mp hd
      rw [UInt8.lt_iff_toNat_lt, Nat.toUInt8, UInt8.toNat_ofNat']
      have hmod := Nat.mod_lt n (show 85 > 0 by decide)
      simp
      omega

theorem value_append_singleton (digits : Bytes) (d : UInt8) :
    value (digits ++ [d]) = value digits * 85 + d.toNat := by
  simp [value, List.foldl_append]

theorem value_digits85 (count n : Nat) : value (digits85 count n) = n % 85 ^ count := by
  induction count generalizing n with
  | zero => simp [digits85, value, Nat.mod_one]
  | succ count ih =>
    have hlow : (n % 85).toUInt8.toNat = n % 85 := by
      rw [Nat.toUInt8, UInt8.toNat_ofNat']
      omega
    rw [digits85, value_append_singleton, ih, hlow, pow_succ', Nat.mod_mul]
    ring

theorem take_digits85 (high low n : Nat) :
    (digits85 (high + low) n).take high = digits85 high (n / 85 ^ low) := by
  induction low generalizing n with
  | zero => simp [List.take_of_length_le]
  | succ low ih =>
    rw [← Nat.add_assoc, digits85, List.take_append_of_le_length (by simp), ih, Nat.div_div_eq_div_mul,
      pow_succ']

theorem value_append_replicate (digits : Bytes) (count : Nat) :
    value (digits ++ List.replicate count 84) + 1 = (value digits + 1) * 85 ^ count := by
  induction count with
  | zero => simp
  | succ count ih =>
    have hvalue := value_append_singleton (digits ++ List.replicate count 84) 84
    rw [List.replicate_succ', ← List.append_assoc, hvalue, pow_succ, ← Nat.mul_assoc, ← ih]
    simp
    ring

/-- The symbols of four bytes. -/
def wordSymbols (word : Bytes) : Bytes := (digits85 5 word.toNatBE).map (· + 0x21)

/-- The symbols of some data. A group of four zeros may be written in short, and of a last group of fewer
bytes only as many symbols are written as bytes and one more. -/
inductive Symbols : Bytes → Bytes → Prop
  | nil : Symbols [] []
  | last {bytes : Bytes} : bytes ≠ [] → bytes.length < 4 → Symbols bytes
      ((wordSymbols (bytes ++ List.replicate (4 - bytes.length) 0)).take (bytes.length + 1))
  | word {word data symbols : Bytes} : word.length = 4 → Symbols data symbols →
      Symbols (word ++ data) (wordSymbols word ++ symbols)
  | zeros {data symbols : Bytes} : Symbols data symbols →
      Symbols ([0, 0, 0, 0] ++ data) (122 :: symbols)

theorem exists_symbols (data : Bytes) : ∃ symbols, Symbols data symbols := by
  match data with
  | [] => exact ⟨_, .nil⟩
  | [a] => exact ⟨_, .last (List.cons_ne_nil _ _) (by simp)⟩
  | [a, b] => exact ⟨_, .last (List.cons_ne_nil _ _) (by simp)⟩
  | [a, b, c] => exact ⟨_, .last (List.cons_ne_nil _ _) (by simp)⟩
  | a :: b :: c :: d :: data =>
    obtain ⟨symbols, h⟩ := exists_symbols data
    exact ⟨_, @Symbols.word [a, b, c, d] _ _ rfl h⟩

/-! ### Reading symbols -/

theorem symbol_spec {d : UInt8} (h : d < 85) :
    d + 0x21 ≠ 122 ∧ d + 0x21 ≠ 126 ∧ isWhiteSpace (d + 0x21) = false ∧
      (0x21 ≤ d + 0x21 ∧ d + 0x21 ≤ 0x75) ∧ d + 0x21 - 0x21 = d := by
  revert d
  decide +kernel

theorem decodeGroups?_digit {d : UInt8} (h : d < 85) (group rest : Bytes) :
    decodeGroups? group ((d + 0x21) :: rest) =
      if (group ++ [d]).length = 5 then
        (word? (group ++ [d])).bind fun bytes => (decodeGroups? [] rest).map (bytes ++ ·)
      else decodeGroups? (group ++ [d]) rest := by
  obtain ⟨hzeros, -, -, hrange, hvalue⟩ := symbol_spec h
  rw [decodeGroups?, if_neg (fun h => hzeros h.1), if_pos hrange, hvalue]
  by_cases hfull : (group ++ [d]).length = 5
  · simp only [hfull, if_true]
    cases word? (group ++ [d]) with
    | none => rfl
    | some bytes => cases decodeGroups? [] rest <;> rfl
  · simp only [hfull, if_false]

theorem decodeGroups?_digits {group digits : Bytes} (h : ∀ d ∈ digits, d < 85)
    (hlength : group.length + digits.length < 5) (rest : Bytes) :
    decodeGroups? group (digits.map (· + 0x21) ++ rest) = decodeGroups? (group ++ digits) rest := by
  induction digits generalizing group with
  | nil => simp
  | cons d digits ih =>
    obtain ⟨hd, hdigits⟩ := List.forall_mem_cons.mp h
    simp only [List.length_cons] at hlength
    rw [List.map_cons, List.cons_append, decodeGroups?_digit hd, if_neg (by simp; omega),
      ih hdigits (by simp; omega), List.append_assoc, List.singleton_append]

theorem decodeGroups?_group {digits : Bytes} (h : ∀ d ∈ digits, d < 85) (hlength : digits.length = 5)
    (rest : Bytes) : decodeGroups? [] (digits.map (· + 0x21) ++ rest) =
      (word? digits).bind fun bytes => (decodeGroups? [] rest).map (bytes ++ ·) := by
  obtain rfl | ⟨first, d, rfl⟩ := List.eq_nil_or_concat' digits
  · cases hlength
  simp only [List.forall_mem_append, List.forall_mem_singleton] at h
  simp only [List.length_append, List.length_singleton] at hlength
  rw [List.map_append, List.append_assoc, decodeGroups?_digits h.1 (by simp; omega), List.map_singleton,
    List.singleton_append, decodeGroups?_digit h.2, List.nil_append, if_pos (by simp [hlength])]

theorem toNatBE_lt_of_length {word : Bytes} (h : word.length = 4) : word.toNatBE < UInt32.size := by
  have hlt := Bytes.toNatBE_lt word
  rwa [h] at hlt

theorem word?_digits85 {n : Nat} (h : n < UInt32.size) : word? (digits85 5 n) = some (Bytes.ofNatBE 4 n) := by
  have hlt : n < 85 ^ 5 := h.trans (by decide)
  have hvalue : value (digits85 5 n) = n := by rw [value_digits85, Nat.mod_eq_of_lt hlt]
  rw [value] at hvalue
  simp only [word?, hvalue, if_pos h]

theorem decodeGroups?_wordSymbols {word : Bytes} (h : word.length = 4) (rest : Bytes) :
    decodeGroups? [] (wordSymbols word ++ rest) = (decodeGroups? [] rest).map (word ++ ·) := by
  have hword := Bytes.ofNatBE_toNatBE word
  rw [h] at hword
  rw [wordSymbols, decodeGroups?_group lt_of_mem_digits85 (by simp),
    word?_digits85 (toNatBE_lt_of_length h), hword, Option.bind_some]

/-- A last group is completed by the highest digit, which changes only the bytes that are cut off. -/
theorem completed_div {n q missing : Nat} (hq : q = n * 256 ^ missing / 85 ^ missing) :
    ((q + 1) * 85 ^ missing - 1) / 256 ^ missing = n := by
  have hpos : 0 < 85 ^ missing := Nat.pow_pos (by decide)
  have hle : 85 ^ missing ≤ 256 ^ missing := Nat.pow_le_pow_left (by decide) missing
  have hlow : q * 85 ^ missing ≤ n * 256 ^ missing := hq ▸ Nat.div_mul_le_self _ _
  have hhigh : n * 256 ^ missing < (q + 1) * 85 ^ missing := by
    rw [hq, Nat.mul_comm (_ + 1)]
    exact Nat.lt_mul_div_succ _ hpos
  rw [Nat.succ_mul] at hhigh ⊢
  refine Nat.div_eq_of_lt_le ?_ ?_
  · omega
  · rw [Nat.succ_mul]
    omega

theorem lastWord?_digits85 {count missing n : Nat} (hcount : count + 1 + missing = 4)
    (hn : n < 256 ^ (count + 1)) :
    lastWord? (digits85 (count + 2) (n * 256 ^ missing / 85 ^ missing)) =
      some (Bytes.ofNatBE (count + 1) n) := by
  obtain ⟨q, hq⟩ : ∃ q, q = n * 256 ^ missing / 85 ^ missing := ⟨_, rfl⟩
  have hdiv := completed_div hq
  rw [← hq]
  have hpos : 0 < 256 ^ missing := Nat.pow_pos (by decide)
  have hsize : 256 ^ (count + 1) * 256 ^ missing = UInt32.size := by
    rw [← pow_add, hcount]
    rfl
  have htotal : n * 256 ^ missing < UInt32.size := hsize ▸ Nat.mul_lt_mul_of_pos_right hn hpos
  have hdigits : value (digits85 (count + 2) q) = q := by
    have hfive : 85 ^ missing * 85 ^ (count + 2) = 85 ^ 5 := by
      rw [← pow_add]
      congr 1
      omega
    have hlt : q < 85 ^ (count + 2) := by
      rw [hq]
      exact Nat.div_lt_of_lt_mul (hfive ▸ htotal.trans (by decide))
    rw [value_digits85, Nat.mod_eq_of_lt hlt]
  have hvalue := value_append_replicate (digits85 (count + 2) q) missing
  rw [hdigits] at hvalue
  rw [← hvalue, Nat.add_sub_cancel] at hdiv
  have hlt : value (digits85 (count + 2) q ++ List.replicate missing 84) < UInt32.size :=
    hsize ▸ (Nat.div_lt_iff_lt_mul hpos).mp (hdiv ▸ hn)
  have hword : word? (digits85 (count + 2) q ++ List.replicate missing 84) =
      some (Bytes.ofNatBE 4 (value (digits85 (count + 2) q ++ List.replicate missing 84))) :=
    if_pos hlt
  have hmissing : 5 - (count + 2) = missing := by omega
  have htake := Bytes.take_ofNatBE (count + 1) missing
    (value (digits85 (count + 2) q ++ List.replicate missing 84))
  rw [hcount, hdiv] at htake
  simp only [lastWord?, length_digits85, hmissing, hword, Option.map_some, Nat.add_succ_sub_one, htake]

theorem decodeGroups?_last {bytes : Bytes} (hne : bytes ≠ []) (hlt : bytes.length < 4) :
    decodeGroups? [] ((wordSymbols (bytes ++ List.replicate (4 - bytes.length) 0)).take
      (bytes.length + 1)) = some bytes := by
  obtain ⟨count, hcount⟩ := Nat.exists_eq_add_one_of_ne_zero (mt List.length_eq_zero_iff.mp hne)
  obtain ⟨missing, hmissing⟩ := Nat.exists_eq_add_of_le hlt.le
  have hdigits := take_digits85 (count + 2) missing (bytes.toNatBE * 256 ^ missing)
  have hfive : count + 2 + missing = 5 := by omega
  have hbound := Bytes.toNatBE_lt bytes
  have hbytes := Bytes.ofNatBE_toNatBE bytes
  have hread := lastWord?_digits85 (by omega : count + 1 + missing = 4) (hcount ▸ hbound)
  rw [hfive] at hdigits
  rw [hcount] at hbytes
  rw [hbytes] at hread
  rw [wordSymbols, ← List.map_take, (by omega : 4 - bytes.length = missing),
    Bytes.toNatBE_append_replicate, hcount, hdigits,
    ← List.append_nil (List.map _ _), decodeGroups?_digits lt_of_mem_digits85 (by simp; omega),
    List.nil_append, decodeGroups?, hread]

theorem decodeGroups?_symbols (h : Symbols data symbols) : decodeGroups? [] symbols = some data := by
  induction h with
  | nil => rfl
  | last hne hlt => exact decodeGroups?_last hne hlt
  | word hlength _ ih => rw [decodeGroups?_wordSymbols hlength, ih, Option.map_some]
  | zeros _ ih => rw [decodeGroups?, if_pos (by simp), ih, Option.map_some]

theorem Symbols.mem (h : Symbols data symbols) {b : UInt8} (hb : b ∈ symbols) :
    b ≠ 126 ∧ isWhiteSpace b = false := by
  have hword : ∀ word : Bytes, ∀ b ∈ wordSymbols word, b ≠ 126 ∧ isWhiteSpace b = false := by
    intro word b hb
    obtain ⟨d, hd, rfl⟩ := List.mem_map.mp hb
    obtain ⟨-, htilde, hspace, -⟩ := symbol_spec (lt_of_mem_digits85 d hd)
    exact ⟨htilde, hspace⟩
  induction h with
  | nil => cases hb
  | last _ _ => exact hword _ b (List.mem_of_mem_take hb)
  | word _ _ ih => exact (List.mem_append.mp hb).elim (hword _ b) ih
  | zeros _ ih =>
    rcases List.mem_cons.mp hb with rfl | hb
    · decide
    · exact ih hb

/-- White space may also stand inside the mark of the end. -/
theorem decode?_append (h : Symbols data symbols) (hbody : Interspersed (symbols ++ [126, 62]) body)
    (after : Bytes) : decode? (body ++ after) = some data := by
  have htext : ((body ++ after).filter fun b => !isWhiteSpace b).takeWhile (· ≠ 126) = symbols := by
    rw [List.filter_append, hbody, List.append_assoc,
      List.takeWhile_append_of_pos fun b hb => by simpa using (h.mem hb).1]
    simp
  rw [decode?, htext, decodeGroups?_symbols h]

end Ascii85

end Filter

end Folio
