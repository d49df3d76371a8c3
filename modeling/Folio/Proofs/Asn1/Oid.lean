import Folio.Asn1.Oid
import Folio.Proofs.Bytes

/-!
# Encoded object identifiers

The encoding of an object identifier and its reading. Main statements: `decode_encode`, an identifier is
read back if its numbers fit into 64 bits, and `decode_eq_ok_iff`, nothing else is read. The digits of a
number are read highest first, so the induction is on the number without its last digit.
-/

namespace Folio.Asn1.Oid

variable {o : Oid} {n : Nat}

/-! ## Numbers in base 128 -/

/-- The marked base-128 digits of a number, highest first. -/
def markedDigits (n : Nat) : Bytes := (Nat.digits 128 n).reverse.map fun d => (0x80 + d).toUInt8

/-- A number in base 128, where all digits but the last are marked. -/
def encodeNumber (n : Nat) : Bytes := markedDigits (n / 128) ++ [(n % 128).toUInt8]

theorem markedDigits_of_pos (h : 0 < n) :
    markedDigits n = markedDigits (n / 128) ++ [(0x80 + n % 128).toUInt8] := by
  rw [markedDigits, Nat.digits_def' (by decide) h, List.reverse_cons, List.map_append]
  rfl

theorem toNat_marked (h : n < 128) : (0x80 + n).toUInt8.toNat = 0x80 + n := by
  rw [Nat.toUInt8, UInt8.toNat_ofNat']
  omega

theorem toNat_unmarked (h : n < 128) : n.toUInt8.toNat = n := by
  rw [Nat.toUInt8, UInt8.toNat_ofNat']
  omega

theorem decodeNumbers?_marked {value : Nat} {started : Bool} {d : Nat} {rest : Bytes} (hd : d < 128)
    (hstarted : started = true ∨ 0 < d) (hvalue : value * 128 < UInt64.size) :
    decodeNumbers? value started ((0x80 + d).toUInt8 :: rest) =
      decodeNumbers? (value * 128 + d) true rest := by
  have hbyte := toNat_marked hd
  have hlarge : ¬ (0x80 + d).toUInt8 < 0x80 := by
    rw [UInt8.lt_iff_toNat_lt, hbyte]
    exact Nat.not_lt.mpr (Nat.le_add_right _ _)
  have hdigit : (0x80 + d) % 128 = d := by omega
  have hpadding : (!started && (0x80 + d).toUInt8 == 0x80) = false := by
    rcases hstarted with rfl | hd
    · rfl
    · have hne : (0x80 + d).toUInt8 ≠ 0x80 := by
        intro heq
        rw [heq] at hbyte
        change 0x80 = 0x80 + d at hbyte
        omega
      rw [beq_false_of_ne hne, Bool.and_false]
  rw [decodeNumbers?, hpadding, if_neg (by decide), if_neg (Nat.not_le.mpr hvalue), if_neg hlarge, hbyte,
    hdigit]

theorem decodeNumbers?_last {value : Nat} {started : Bool} {d : Nat} {rest : Bytes} (hd : d < 128)
    (hvalue : value * 128 < UInt64.size) : decodeNumbers? value started (d.toUInt8 :: rest) =
      (decodeNumbers? 0 false rest).map ((value * 128 + d) :: ·) := by
  have hbyte := toNat_unmarked hd
  have hsmall : d.toUInt8 < 0x80 := by
    rw [UInt8.lt_iff_toNat_lt, hbyte]
    exact hd
  have hpadding : (!started && d.toUInt8 == 0x80) = false := by
    have hne : d.toUInt8 ≠ 0x80 := fun heq => absurd hsmall (by rw [heq]; decide)
    rw [beq_false_of_ne hne, Bool.and_false]
  rw [decodeNumbers?, hpadding, if_neg (by decide), if_neg (Nat.not_le.mpr hvalue), if_pos hsmall, hbyte,
    Nat.mod_eq_of_lt hd]

theorem decodeNumbers?_markedDigits (hpos : 0 < n) (h : n < UInt64.size) (rest : Bytes) :
    decodeNumbers? 0 false (markedDigits n ++ rest) = decodeNumbers? n true rest := by
  induction n using Nat.strongRecOn generalizing rest with
  | ind n ih =>
    have hdigit : n % 128 < 128 := Nat.mod_lt _ (by decide)
    have hsplit : n / 128 * 128 + n % 128 = n := by omega
    rw [markedDigits_of_pos hpos, List.append_assoc, List.singleton_append]
    by_cases hhigh : 0 < n / 128
    · rw [ih (n / 128) (by omega) hhigh (by omega), decodeNumbers?_marked hdigit (.inl rfl) (by omega), hsplit]
    · have hzero : n / 128 = 0 := by omega
      rw [hzero] at hsplit
      rw [hzero, markedDigits, Nat.digits_zero]
      exact (decodeNumbers?_marked hdigit (.inr (by omega)) (by decide)).trans (by rw [hsplit])

theorem decodeNumbers?_encodeNumber (h : n < UInt64.size) (rest : Bytes) :
    decodeNumbers? 0 false (encodeNumber n ++ rest) = (decodeNumbers? 0 false rest).map (n :: ·) := by
  have hdigit : n % 128 < 128 := Nat.mod_lt _ (by decide)
  have hsplit : n / 128 * 128 + n % 128 = n := by omega
  rw [encodeNumber, List.append_assoc, List.singleton_append]
  by_cases hhigh : 0 < n / 128
  · rw [decodeNumbers?_markedDigits hhigh (by omega), decodeNumbers?_last hdigit (by omega), hsplit]
  · have hzero : n / 128 = 0 := by omega
    rw [hzero] at hsplit
    rw [hzero, markedDigits, Nat.digits_zero]
    exact (decodeNumbers?_last hdigit (by decide)).trans (by rw [hsplit])

theorem decodeNumbers?_flatMap {numbers : List Nat} (h : ∀ n ∈ numbers, n < UInt64.size) :
    decodeNumbers? 0 false (numbers.flatMap encodeNumber) = some numbers := by
  induction numbers with
  | nil => rfl
  | cons n numbers ih =>
    obtain ⟨hn, hnumbers⟩ := List.forall_mem_cons.mp h
    rw [List.flatMap_cons, decodeNumbers?_encodeNumber hn, ih hnumbers]
    rfl

/-! ## Identifiers -/

/-- Whether the arcs name a node of the tree of identifiers: there are three roots, and the nodes below the
first two of them are numbered from 0 to 39. -/
def IsProper (o : Oid) : Prop :=
  match o.arcs with
  | first :: second :: _ => first ≤ 2 ∧ (first < 2 → second < 40)
  | _ => False

instance (o : Oid) : Decidable o.IsProper := by
  unfold IsProper
  split <;> infer_instance

/-- The numbers that an identifier is encoded as. The first two arcs share one of them. -/
def numbers (o : Oid) : List Nat :=
  match o.arcs with
  | first :: second :: rest => (first * 40 + second) :: rest
  | arcs => arcs

/-- The encoding of an identifier. -/
def encode (o : Oid) : Bytes := o.numbers.flatMap encodeNumber

/-- Whether the arcs name a node and all encoded numbers fit into 64 bits. -/
def Fits (o : Oid) : Prop := o.IsProper ∧ ∀ n ∈ o.numbers, n < UInt64.size

instance (o : Oid) : Decidable o.Fits := by
  unfold Fits
  infer_instance

/-- Whether the arcs name a node and each of them fits into 64 bits. The numbers that they are encoded as may
be larger. -/
def IsRepresentable (o : Oid) : Prop := o.IsProper ∧ ∀ arc ∈ o.arcs, arc < UInt64.size

instance (o : Oid) : Decidable o.IsRepresentable := by
  unfold IsRepresentable
  infer_instance

theorem splitFirst_add {first second : Nat} (hfirst : first ≤ 2) (hsecond : first < 2 → second < 40) :
    splitFirst (first * 40 + second) = (first, second) := by
  have hroot : min ((first * 40 + second) / 40) 2 = first := by omega
  simp [splitFirst, hroot]

theorem decode_encode (h : o.Fits) : decode o.encode = .ok o := by
  obtain ⟨hproper, hnumbers⟩ := h
  have hread := decodeNumbers?_flatMap hnumbers
  obtain ⟨_ | ⟨first, _ | ⟨second, rest⟩⟩⟩ := o
  · exact hproper.elim
  · exact hproper.elim
  · rw [decode, encode, hread]
    simp only [numbers, splitFirst_add hproper.1 hproper.2]

/-! ## What is read -/

/-- A digit can be put behind those of any number, except a zero behind no digit at all. -/
theorem markedDigits_add {value d : Nat} (hd : d < 128) (hpos : 0 < value * 128 + d) :
    markedDigits (value * 128 + d) = markedDigits value ++ [(0x80 + d).toUInt8] := by
  have hvalue : (value * 128 + d) / 128 = value := by omega
  have hdigit : (value * 128 + d) % 128 = d := by omega
  rw [markedDigits_of_pos hpos, hvalue, hdigit]

theorem encodeNumber_add {value d : Nat} (hd : d < 128) :
    encodeNumber (value * 128 + d) = markedDigits value ++ [d.toUInt8] := by
  have hvalue : (value * 128 + d) / 128 = value := by omega
  have hdigit : (value * 128 + d) % 128 = d := by omega
  rw [encodeNumber, hvalue, hdigit]

theorem toUInt8_of_lt {b : UInt8} (h : b < 0x80) : (b.toNat % 128).toUInt8 = b := by
  have hb : b.toNat < 128 := UInt8.lt_iff_toNat_lt.mp h
  apply UInt8.toNat_inj.mp
  rw [toNat_unmarked (by omega), Nat.mod_eq_of_lt hb]

theorem toUInt8_of_le {b : UInt8} (h : 0x80 ≤ b) : (0x80 + b.toNat % 128).toUInt8 = b := by
  have hb : 128 ≤ b.toNat := UInt8.le_iff_toNat_le.mp h
  have hbyte := b.toNat_lt
  apply UInt8.toNat_inj.mp
  rw [toNat_marked (by omega)]
  omega

/-- A byte that is read ends the current number or goes on with it. It does not begin one with a zero. -/
theorem decodeNumbers?_cons_cases {value : Nat} {started : Bool} {b : UInt8} {rest : Bytes}
    {numbers : List Nat} (h : decodeNumbers? value started (b :: rest) = some numbers) :
    value * 128 + b.toNat % 128 < UInt64.size ∧
      ((b < 0x80 ∧ ∃ following, decodeNumbers? 0 false rest = some following ∧
          numbers = (value * 128 + b.toNat % 128) :: following) ∨
        (0x80 ≤ b ∧ (started = true ∨ 0 < b.toNat % 128) ∧
          decodeNumbers? (value * 128 + b.toNat % 128) true rest = some numbers)) := by
  rw [decodeNumbers?] at h
  split at h
  · cases h
  rename_i hpadding
  split at h
  · cases h
  rename_i hvalue
  have hsize : value * 128 + b.toNat % 128 < UInt64.size := by
    have hwords : UInt64.size = 144115188075855872 * 128 := rfl
    omega
  refine ⟨hsize, ?_⟩
  split at h
  · rename_i hlast
    obtain ⟨following, hfollowing, rfl⟩ := Option.map_eq_some_iff.mp h
    exact .inl ⟨hlast, following, hfollowing, rfl⟩
  · rename_i hmarked
    have hb : 0x80 ≤ b := UInt8.not_lt.mp hmarked
    refine .inr ⟨hb, ?_, h⟩
    by_contra hno
    obtain ⟨hfresh, hzero⟩ := not_or.mp hno
    have hpad : b = 0x80 := by
      rw [← toUInt8_of_le hb, Nat.eq_zero_of_not_pos hzero]
      rfl
    exact hpadding (by simp [hfresh, hpad])

/-- The digits of the current number and the bytes that follow are the encoding of what is read, by induction
on these bytes. A number has been started exactly if it is not zero so far. -/
theorem markedDigits_append_of_decodeNumbers? {value : Nat} {started : Bool} {contents : Bytes}
    {numbers : List Nat} (hstarted : started = true ↔ 0 < value)
    (h : decodeNumbers? value started contents = some numbers) :
    markedDigits value ++ contents = numbers.flatMap encodeNumber ∧ ∀ n ∈ numbers, n < UInt64.size := by
  induction contents generalizing value started numbers with
  | nil =>
    cases started with
    | true => cases h
    | false =>
      obtain rfl : value = 0 := by simpa using hstarted
      obtain rfl := Option.some.inj h
      exact ⟨rfl, by simp⟩
  | cons b rest ih =>
    have hdigit : b.toNat % 128 < 128 := Nat.mod_lt _ (by decide)
    obtain ⟨hsize, ⟨hlast, following, hfollowing, rfl⟩ | ⟨hmarked, hbegun, hrest⟩⟩ :=
      decodeNumbers?_cons_cases h
    · obtain ⟨hcodes, hfit⟩ := ih (by simp) hfollowing
      refine ⟨?_, List.forall_mem_cons.mpr ⟨hsize, hfit⟩⟩
      calc markedDigits value ++ b :: rest = (markedDigits value ++ [b]) ++ (markedDigits 0 ++ rest) := by
            simp [markedDigits]
        _ = encodeNumber (value * 128 + b.toNat % 128) ++ following.flatMap encodeNumber := by
            rw [encodeNumber_add hdigit, toUInt8_of_lt hlast, hcodes]
        _ = _ := (List.flatMap_cons ..).symm
    · have hpos : 0 < value * 128 + b.toNat % 128 := by
        rcases hbegun with hbegun | hbegun
        · have := hstarted.mp hbegun
          omega
        · omega
      obtain ⟨hcodes, hfit⟩ := ih (by simpa using hpos) hrest
      refine ⟨?_, hfit⟩
      rw [← hcodes, markedDigits_add hdigit hpos, toUInt8_of_le hmarked, List.append_assoc]
      rfl

theorem splitFirst_spec (number : Nat) :
    (splitFirst number).1 ≤ 2 ∧ ((splitFirst number).1 < 2 → (splitFirst number).2 < 40) ∧
      (splitFirst number).1 * 40 + (splitFirst number).2 = number := by
  simp only [splitFirst]
  omega

/-- What is read fits, and its encoding is what it was read from. -/
theorem fits_of_decode {contents : Bytes} (h : decode contents = .ok o) :
    o.Fits ∧ contents = o.encode := by
  unfold decode at h
  split at h
  · rename_i number rest hread
    obtain ⟨hcodes, hfit⟩ := markedDigits_append_of_decodeNumbers? (by simp) hread
    have hsplit := splitFirst_spec number
    generalize splitFirst number = arcs at h hsplit
    obtain ⟨first, second⟩ := arcs
    obtain ⟨hfirst, hsecond, rfl⟩ := hsplit
    obtain rfl := Except.ok.inj h
    exact ⟨⟨⟨hfirst, hsecond⟩, hfit⟩, hcodes⟩
  · cases h

/-! ## Shortest codes -/

/-- Whether bytes are the base-128 digits of a number, highest first, all but the last of them marked. -/
def Writes (n : Nat) (code : Bytes) : Prop :=
  ∃ marked last, code = marked ++ [last] ∧ (∀ b ∈ marked, 0x80 ≤ b) ∧ last < 0x80 ∧
    code.foldl (fun value b => value * 128 + b.toNat % 128) 0 = n

/-- Whether bytes write a number and no fewer bytes do. -/
def WritesShortest (n : Nat) (code : Bytes) : Prop :=
  Writes n code ∧ ∀ other, Writes n other → code.length ≤ other.length

/-- Whether an encoding consists of the numbers of an identifier, each with the fewest possible bytes. -/
def IsWrittenAs (o : Oid) (contents : Bytes) : Prop :=
  ∃ codes, List.Forall₂ WritesShortest o.numbers codes ∧ contents = codes.flatten

theorem eq_replicate_append_markedDigits {marked : Bytes} (h : ∀ b ∈ marked, 0x80 ≤ b) :
    ∃ zeros, marked = List.replicate zeros 0x80 ++
      markedDigits (marked.foldl (fun value b => value * 128 + b.toNat % 128) 0) := by
  induction marked using List.reverseRecOn with
  | nil => exact ⟨0, rfl⟩
  | append_singleton marked b ih =>
    have hb : 0x80 ≤ b := h b (by simp)
    have hdigit : b.toNat % 128 < 128 := Nat.mod_lt _ (by decide)
    obtain ⟨zeros, hmarked⟩ := ih fun c hc => h c (List.mem_append_left _ hc)
    rw [List.foldl_append, List.foldl_cons, List.foldl_nil]
    generalize marked.foldl (fun value b => value * 128 + b.toNat % 128) 0 = value at hmarked ⊢
    by_cases hpos : 0 < value * 128 + b.toNat % 128
    · refine ⟨zeros, ?_⟩
      rw [markedDigits_add hdigit hpos, toUInt8_of_le hb, ← List.append_assoc, ← hmarked]
    · -- Zeros in front of a number have no digits.
      obtain ⟨rfl, hzero⟩ : value = 0 ∧ b.toNat % 128 = 0 := by omega
      have hpad : b = 0x80 := by
        rw [← toUInt8_of_le hb, hzero]
        rfl
      refine ⟨zeros + 1, ?_⟩
      rw [hmarked, hzero, hpad, List.replicate_succ']
      simp [markedDigits]

/-- All that write a number differ in the zeros in front of it. -/
theorem Writes.eq_replicate_append {code : Bytes} (h : Writes n code) :
    ∃ zeros, code = List.replicate zeros 0x80 ++ encodeNumber n := by
  obtain ⟨marked, last, rfl, hmarked, hlast, rfl⟩ := h
  obtain ⟨zeros, hzeros⟩ := eq_replicate_append_markedDigits hmarked
  refine ⟨zeros, ?_⟩
  rw [List.foldl_append, List.foldl_cons, List.foldl_nil, encodeNumber_add (Nat.mod_lt _ (by decide)),
    toUInt8_of_lt hlast, ← List.append_assoc, ← hzeros]

theorem le_of_mem_markedDigits {b : UInt8} (h : b ∈ markedDigits n) : 0x80 ≤ b := by
  obtain ⟨d, hd, rfl⟩ := List.mem_map.mp h
  have hdigit : d < 128 := Nat.digits_lt_base (by decide) (List.mem_reverse.mp hd)
  rw [UInt8.le_iff_toNat_le, toNat_marked hdigit]
  exact Nat.le_add_right _ _

theorem foldl_markedDigits (n : Nat) :
    (markedDigits n).foldl (fun value b => value * 128 + b.toNat % 128) 0 = n := by
  induction n using Nat.strongRecOn with
  | ind n ih =>
    by_cases hpos : 0 < n
    · rw [markedDigits_of_pos hpos, List.foldl_append, ih _ (by omega), List.foldl_cons, List.foldl_nil,
        toNat_marked (by omega)]
      omega
    · obtain rfl : n = 0 := by omega
      rfl

theorem writes_encodeNumber (n : Nat) : Writes n (encodeNumber n) := by
  have hdigit : n % 128 < 128 := Nat.mod_lt _ (by decide)
  have hbyte := toNat_unmarked hdigit
  refine ⟨_, _, rfl, fun b => le_of_mem_markedDigits, ?_, ?_⟩
  · rw [UInt8.lt_iff_toNat_lt, hbyte]
    exact hdigit
  · rw [encodeNumber, List.foldl_append, foldl_markedDigits, List.foldl_cons, List.foldl_nil, hbyte]
    omega

theorem writesShortest_iff {code : Bytes} : WritesShortest n code ↔ encodeNumber n = code := by
  constructor
  · rintro ⟨hcode, hshortest⟩
    obtain ⟨zeros, rfl⟩ := hcode.eq_replicate_append
    have hlength := hshortest _ (writes_encodeNumber n)
    rw [List.length_append, List.length_replicate] at hlength
    obtain rfl : zeros = 0 := by omega
    rfl
  · rintro rfl
    refine ⟨writes_encodeNumber n, fun other hother => ?_⟩
    obtain ⟨zeros, rfl⟩ := hother.eq_replicate_append
    rw [List.length_append]
    exact Nat.le_add_left _ _

theorem isWrittenAs_iff {contents : Bytes} : o.IsWrittenAs contents ↔ contents = o.encode := by
  have hshortest : WritesShortest = fun n code => encodeNumber n = code := by
    funext n code
    exact propext writesShortest_iff
  have hcodes (codes : List Bytes) :
      List.Forall₂ WritesShortest o.numbers codes ↔ o.numbers.map encodeNumber = codes := by
    rw [hshortest, ← List.forall₂_map_left_iff, List.forall₂_eq_eq_eq]
  simp only [IsWrittenAs, hcodes, exists_eq_left']
  rfl

/-- An encoding is read exactly if it consists of the numbers of an identifier that fits, each with the fewest
possible bytes. This is the only encoding of what is read. -/
theorem decode_eq_ok_iff (contents : Bytes) (o : Oid) :
    (decode contents = .ok o ↔ o.Fits ∧ o.IsWrittenAs contents) ∧
      (o.IsWrittenAs contents ↔ contents = o.encode) := by
  refine ⟨⟨fun h => ?_, ?_⟩, isWrittenAs_iff⟩
  · obtain ⟨hfits, hcontents⟩ := fits_of_decode h
    exact ⟨hfits, isWrittenAs_iff.mpr hcontents⟩
  · rintro ⟨hfits, hwritten⟩
    rw [isWrittenAs_iff.mp hwritten]
    exact decode_encode hfits

end Folio.Asn1.Oid
