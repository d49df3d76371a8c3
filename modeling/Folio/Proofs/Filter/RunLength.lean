import Folio.Filter.Basic
import Folio.Proofs.Bytes

/-!
# Data in runs

Data is read back from each way to cut it into runs, whatever comes after the mark of the end
(`RunLength.decode_append`). The text may be cut off anywhere: within a run of bytes as they are, between a length and
the byte that it repeats, or before the mark of the end. Main statement: `decode?_prefix`, what is decoded from the part
before a cut is a prefix of what is decoded from all, and has all runs that are there completely.
-/

namespace Folio.Filter

namespace RunLength

variable {data text run : Bytes} {count : Nat}

/-- Data cut into runs: bytes as they are, or one byte that is repeated. The byte 128 ends it. -/
inductive Runs : Bytes → Bytes → Prop
  | stop : Runs [] [128]
  | literal {run data text : Bytes} : run ≠ [] → run.length ≤ 128 → Runs data text →
      Runs (run ++ data) ((run.length - 1).toUInt8 :: (run ++ text))
  | repeated {b : UInt8} {count : Nat} {data text : Bytes} : 2 ≤ count → count ≤ 128 → Runs data text →
      Runs (List.replicate count b ++ data) ((257 - count).toUInt8 :: b :: text)

theorem exists_runs (data : Bytes) : ∃ text, Runs data text := by
  induction data with
  | nil => exact ⟨_, .stop⟩
  | cons b data ih =>
    obtain ⟨text, h⟩ := ih
    exact ⟨_, @Runs.literal [b] _ _ (List.cons_ne_nil _ _) (by simp) h⟩

theorem decodeRuns_literal (hne : run ≠ []) (hle : run.length ≤ 128) (fuel : Nat) (rest : Bytes) :
    decodeRuns (fuel + 1) ((run.length - 1).toUInt8 :: (run ++ rest)) = run ++ decodeRuns fuel rest := by
  have hpos := List.length_pos_iff.mpr hne
  have hvalue : (run.length - 1).toUInt8.toNat = run.length - 1 := by
    rw [Nat.toUInt8, UInt8.toNat_ofNat']
    omega
  have hlt : (run.length - 1).toUInt8 < 128 := by
    rw [UInt8.lt_iff_toNat_lt, hvalue]
    exact Nat.sub_one_lt_of_le hpos hle
  have hstop : (run.length - 1).toUInt8 ≠ 128 := UInt8.ne_of_lt hlt
  have hsplit : (run ++ rest).splitAt? (run.length - 1 + 1) = some (run, rest) := by
    simp [Bytes.splitAt?, Nat.sub_add_cancel hpos]
  cases run with
  | nil => exact absurd rfl hne
  | cons b run =>
    rw [List.cons_append] at hsplit ⊢
    rw [decodeRuns, if_neg hstop, if_pos hlt, hvalue, hsplit]

theorem decodeRuns_repeated (hlow : 2 ≤ count) (hhigh : count ≤ 128) (fuel : Nat) (b : UInt8)
    (rest : Bytes) : decodeRuns (fuel + 1) ((257 - count).toUInt8 :: b :: rest) =
      List.replicate count b ++ decodeRuns fuel rest := by
  have hvalue : (257 - count).toUInt8.toNat = 257 - count := by
    rw [Nat.toUInt8, UInt8.toNat_ofNat']
    omega
  have hlt : ¬ (257 - count).toUInt8 < 128 := by
    rw [UInt8.lt_iff_toNat_lt, hvalue]
    exact Nat.not_lt.mpr (by simp; omega)
  have hstop : (257 - count).toUInt8 ≠ 128 := by
    intro heq
    have htoNat : 257 - count = 128 := hvalue.symm.trans (congrArg UInt8.toNat heq)
    omega
  have hcount : 257 - (257 - count) = count := by omega
  rw [decodeRuns, if_neg hstop, if_neg hlt, hvalue, hcount]

theorem decodeRuns_append (h : Runs data text) (after : Bytes) {fuel : Nat} (hfuel : text.length ≤ fuel) :
    decodeRuns fuel (text ++ after) = data := by
  induction h generalizing fuel with
  | stop =>
    obtain ⟨fuel, rfl⟩ := Nat.exists_eq_succ_of_ne_zero (Nat.ne_zero_of_lt hfuel)
    rfl
  | literal hne hle _ ih =>
    obtain ⟨fuel, rfl⟩ := Nat.exists_eq_succ_of_ne_zero (Nat.ne_zero_of_lt hfuel)
    simp only [List.length_cons, List.length_append] at hfuel
    rw [List.cons_append, List.append_assoc, decodeRuns_literal hne hle, ih (by omega)]
  | repeated hlow hhigh _ ih =>
    obtain ⟨fuel, rfl⟩ := Nat.exists_eq_succ_of_ne_zero (Nat.ne_zero_of_lt hfuel)
    simp only [List.length_cons] at hfuel
    rw [List.cons_append, List.cons_append, decodeRuns_repeated hlow hhigh, ih (by omega)]

theorem decode_append (h : Runs data text) (after : Bytes) : decode (text ++ after) = data :=
  decodeRuns_append h after (by simp)

/-! ## Text that is cut off -/

variable {front : Bytes} {fuel more : Nat}

/-- The decoder goes through the runs of a part in step with those of all data. The first run that the part does not
have completely adds nothing, so that whatever follows in all data may be added there. -/
theorem decodeRuns_prefix (hfuel : fuel ≤ more) (h : front <+: data) :
    decodeRuns fuel front <+: decodeRuns more data := by
  induction fuel generalizing more front data with
  | zero => exact List.nil_prefix
  | succ fuel ih =>
    obtain ⟨more, rfl⟩ := Nat.exists_eq_succ_of_ne_zero (Nat.ne_zero_of_lt hfuel)
    have hfuel : fuel ≤ more := Nat.le_of_succ_le_succ hfuel
    obtain ⟨cut, rfl⟩ := h
    cases front with
    | nil => exact List.nil_prefix
    | cons length front =>
      rw [List.cons_append]
      unfold decodeRuns
      by_cases hstop : length = 128
      · rw [if_pos hstop, if_pos hstop]
      rw [if_neg hstop, if_neg hstop]
      by_cases hliteral : length < 128
      · rw [if_pos hliteral, if_pos hliteral]
        cases hsplit : Bytes.splitAt? front (length.toNat + 1) with
        | none => exact List.nil_prefix
        | some parts =>
          obtain ⟨run, rest⟩ := parts
          rw [Bytes.splitAt?_append hsplit cut]
          exact (List.prefix_append_right_inj run).mpr (ih hfuel (List.prefix_append rest cut))
      · rw [if_neg hliteral, if_neg hliteral]
        cases front with
        | nil => exact List.nil_prefix
        | cons b rest => exact (List.prefix_append_right_inj _).mpr (ih hfuel (List.prefix_append rest cut))

theorem Runs.ne_nil (h : Runs data text) : text ≠ [] := by
  cases h <;> exact List.cons_ne_nil _ _

/-- All runs of some data are decoded without the mark of the end, whatever comes in its place. -/
theorem Runs.prefix_decodeRuns (h : Runs data text) (after : Bytes) (hfuel : text.length ≤ fuel + 1) :
    data <+: decodeRuns fuel (text.dropLast ++ after) := by
  induction h generalizing fuel with
  | stop => exact List.nil_prefix
  | @literal run data text hne hle hruns ih =>
    have hlast : ((run.length - 1).toUInt8 :: (run ++ text)).dropLast =
        (run.length - 1).toUInt8 :: (run ++ text.dropLast) := by
      rw [List.dropLast_cons_of_ne_nil (List.append_ne_nil_of_right_ne_nil run hruns.ne_nil),
        List.dropLast_append_of_ne_nil hruns.ne_nil]
    have hrun := List.length_pos_iff.mpr hne
    have htext := List.length_pos_iff.mpr hruns.ne_nil
    rw [List.length_cons, List.length_append] at hfuel
    obtain ⟨fuel, rfl⟩ := Nat.exists_eq_succ_of_ne_zero (show fuel ≠ 0 by omega)
    rw [hlast, List.cons_append, List.append_assoc, decodeRuns_literal hne hle]
    exact (List.prefix_append_right_inj run).mpr (ih (by omega))
  | @repeated b count data text hlow hhigh hruns ih =>
    have hlast : ((257 - count).toUInt8 :: b :: text).dropLast = (257 - count).toUInt8 :: b :: text.dropLast := by
      rw [List.dropLast_cons_of_ne_nil (List.cons_ne_nil b text), List.dropLast_cons_of_ne_nil hruns.ne_nil]
    rw [List.length_cons, List.length_cons] at hfuel
    have htext := List.length_pos_iff.mpr hruns.ne_nil
    obtain ⟨fuel, rfl⟩ := Nat.exists_eq_succ_of_ne_zero (show fuel ≠ 0 by omega)
    rw [hlast, List.cons_append, List.cons_append, decodeRuns_repeated hlow hhigh]
    exact (List.prefix_append_right_inj _).mpr (ih (by omega))

/-- Data is decoded from any text that begins with all of its runs. -/
theorem Runs.prefix_decode (h : Runs data text) (hfront : text.dropLast <+: front) : data <+: decode front := by
  obtain ⟨after, rfl⟩ := hfront
  refine h.prefix_decodeRuns after ?_
  rw [List.length_append, List.length_dropLast]
  omega

end RunLength

open RunLength

variable {front data : Bytes}

/-- Data in runs that is cut is decoded to the start of what it would be, with all runs before the cut. -/
theorem decode?_prefix (h : front <+: data) (params : Option Dict) :
    ∃ kept all, runLength.decode? front params = some kept ∧ runLength.decode? data params = some all ∧
      kept <+: all ∧ ∀ whole text, Runs whole text → text.dropLast <+: front → whole <+: kept :=
  ⟨_, _, rfl, rfl, decodeRuns_prefix h.length_le h, fun _ _ hruns hfront => hruns.prefix_decode hfront⟩

/-- A run of two bytes and the length of a repetition, before the byte that is repeated. -/
theorem decode?_prefix_lostRepetition :
    [1, 10, 11, 253] <+: ([1, 10, 11, 253, 3, 128] : Bytes) ∧
      ∃ kept all, runLength.decode? [1, 10, 11, 253] none = some kept ∧
        runLength.decode? [1, 10, 11, 253, 3, 128] none = some all ∧ kept <+: all ∧ [10, 11] <+: kept := by
  have hcut : [1, 10, 11, 253] <+: ([1, 10, 11, 253, 3, 128] : Bytes) := List.prefix_append _ [3, 128]
  have hruns : Runs [10, 11] [1, 10, 11, 128] :=
    @Runs.literal [10, 11] [] [128] (List.cons_ne_nil _ _) (by decide) .stop
  obtain ⟨kept, all, hkept, hall, hprefix, hcomplete⟩ := decode?_prefix hcut none
  exact ⟨hcut, kept, all, hkept, hall, hprefix, hcomplete _ _ hruns (List.prefix_append _ [253])⟩

end Folio.Filter
