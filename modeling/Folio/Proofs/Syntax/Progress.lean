import Folio.Proofs.Bytes
import Folio.Syntax.Grammar

/-!
# Readers go forward

A reader that succeeds has taken at least one byte off the data (`Advances`), so a loop that reads until
nothing is left comes to an end. Main statement: `advances_readObject?`, reading an object goes forward, in
either mode and however deep the object is nested.
-/

namespace Folio

namespace Bytes

theorem length_le_of_dropTag? {tag data rest : Bytes} (h : dropTag? tag data = some rest) :
    rest.length ≤ data.length := by
  rw [dropTag?_eq_some.mp h, List.length_append]
  exact Nat.le_add_left _ _

theorem length_le_of_cutAtTag? {tag data before rest : Bytes}
    (h : cutAtTag? tag data = some (before, rest)) : rest.length ≤ data.length := by
  rw [eq_append_of_cutAtTag? h, List.length_append]
  exact Nat.le_add_left _ _

theorem length_le_of_splitAt? {data taken rest : Bytes} {count : Nat}
    (h : splitAt? data count = some (taken, rest)) : rest.length ≤ data.length := by
  obtain ⟨-, rfl⟩ := splitAt?_eq_some.mp h
  simp

end Bytes

namespace Syntax

variable {α : Type} {data rest word : Bytes} {read : Bytes → Option (α × Bytes)}

/-- Whether a reader takes at least one byte off the data whenever it succeeds. -/
def Advances (read : Bytes → Option (α × Bytes)) : Prop :=
  ∀ data value rest, read data = some (value, rest) → rest.length < data.length

/-! ## Space and words -/

mutual

theorem skipSpace_suffix : ∀ data : Bytes, skipSpace data <:+ data
  | [] => List.suffix_refl _
  | b :: rest => by
    rw [skipSpace]
    split
    · exact (skipSpace_suffix rest).trans (List.suffix_cons b rest)
    · split
      · exact (skipComment_suffix rest).trans (List.suffix_cons b rest)
      · exact List.suffix_refl _

theorem skipComment_suffix : ∀ data : Bytes, skipComment data <:+ data
  | [] => List.suffix_refl _
  | b :: rest => by
    rw [skipComment]
    split
    · exact (skipSpace_suffix rest).trans (List.suffix_cons b rest)
    · exact (skipComment_suffix rest).trans (List.suffix_cons b rest)

end

theorem length_skipSpace_le (data : Bytes) : (skipSpace data).length ≤ data.length :=
  (skipSpace_suffix data).length_le

theorem length_lt_of_skipSpace_eq_cons {b : UInt8} (h : skipSpace data = b :: rest) :
    rest.length < data.length := by
  have hskip := length_skipSpace_le data
  rw [h, List.length_cons] at hskip
  omega

theorem skipEndOfLine_suffix (data : Bytes) : skipEndOfLine data <:+ data := by
  unfold skipEndOfLine
  split
  · exact ⟨[13, 10], rfl⟩
  · split
    · exact List.suffix_cons _ _
    · exact List.suffix_refl _
  · exact List.suffix_refl _

theorem length_skipEndOfLine_le (data : Bytes) : (skipEndOfLine data).length ≤ data.length :=
  (skipEndOfLine_suffix data).length_le

theorem length_lt_of_keyword? (h : keyword? data = some word) :
    (data.drop word.length).length < data.length := by
  simp only [keyword?] at h
  split at h
  · cases h
  · rename_i hne
    cases h
    have hpos : 0 < (data.takeWhile isRegular).length := by
      rwa [List.length_pos_iff, ne_eq, ← List.isEmpty_iff]
    have hle : (data.takeWhile isRegular).length ≤ data.length :=
      (List.takeWhile_prefix isRegular).length_le
    rw [List.length_drop]
    omega

/-! ## Tokens -/

theorem length_dropWhile_lt {p : UInt8 → Bool} (h : (data.takeWhile p).isEmpty = false) :
    (data.dropWhile p).length < data.length := by
  cases data with
  | nil => cases h
  | cons b data =>
    cases hb : p b with
    | false => simp [hb] at h
    | true =>
      rw [List.dropWhile_cons_of_pos hb, List.length_cons]
      exact Nat.lt_succ_of_le (List.length_dropWhile_le p data)

theorem length_splitSign_le (data : Bytes) : (splitSign data).2.length ≤ data.length := by
  unfold splitSign
  split <;> simp

theorem advances_readNumeral? : Advances readNumeral? := by
  intro data n rest h
  have hsign := length_splitSign_le data
  simp only [readNumeral?] at h
  generalize (splitSign data).2 = unsigned at h hsign
  have hwhole := List.length_dropWhile_le isDigit unsigned
  split at h
  · rename_i afterPoint hpoint
    rw [hpoint, List.length_cons] at hwhole
    have hfraction := List.length_dropWhile_le isDigit afterPoint
    split at h
    · cases h
    · cases h
      omega
  · split at h
    · cases h
    · rename_i hdigits
      cases h
      have := length_dropWhile_lt (Bool.eq_false_iff.mpr hdigits)
      omega

theorem advances_readNumber? : Advances readNumber? := by
  intro data n rest h
  obtain ⟨_, hread, hrest⟩ := Option.map_eq_some_iff.mp h
  cases hrest
  exact advances_readNumeral? _ _ _ hread

theorem advances_readInteger? : Advances readInteger? := by
  intro data i rest h
  unfold readInteger? at h
  split at h
  · rename_i hread
    cases h
    exact advances_readNumber? _ _ _ hread
  · cases h

theorem length_lt_of_dropBlanks? (h : dropBlanks? data = some rest) : rest.length < data.length := by
  unfold dropBlanks? at h
  split at h
  · split at h
    · cases h
      exact Nat.lt_succ_of_le (List.length_dropWhile_le _ _)
    · cases h
  · cases h

theorem advances_readReference? : Advances readReference? := by
  intro data target rest h
  obtain ⟨⟨_, data1⟩, hnumber, h⟩ := Option.bind_eq_some_iff.mp h
  obtain ⟨data2, hblank, h⟩ := Option.bind_eq_some_iff.mp h
  obtain ⟨⟨_, data3⟩, hgeneration, h⟩ := Option.bind_eq_some_iff.mp h
  obtain ⟨data4, hblanks, h⟩ := Option.bind_eq_some_iff.mp h
  have h1 := advances_readInteger? _ _ _ hnumber
  have h2 := length_lt_of_dropBlanks? hblank
  have h3 := advances_readInteger? _ _ _ hgeneration
  have h4 := length_lt_of_dropBlanks? hblanks
  split at h
  · split at h
    · cases h
    · obtain ⟨_, -, hrest⟩ := Option.bind_eq_some_iff.mp h
      cases hrest
      simp only [List.length_cons] at h4
      omega
  · cases h

theorem advances_readName? : Advances readName? := by
  intro data n rest h
  unfold readName? at h
  split at h
  · cases h
    exact Nat.lt_succ_of_le (List.length_dropWhile_le _ _)
  · cases h

theorem advances_spanLiteral? (nesting : Nat) : Advances (spanLiteral? nesting) := by
  intro data text rest h
  fun_induction spanLiteral? nesting data generalizing text with
  | case1 | case2 => cases h
  | case5 =>
    cases h
    exact Nat.lt_succ_self _
  | case3 _ _ _ ih | case4 _ _ _ _ ih | case6 _ _ _ _ _ ih | case7 _ _ _ _ _ _ _ ih =>
    obtain ⟨⟨_, _⟩, hspan, hrest⟩ := Option.map_eq_some_iff.mp h
    cases hrest
    have := ih _ hspan
    simp only [List.length_cons]
    omega

theorem advances_readHex? (mode : Mode) : Advances (readHex? mode) := by
  intro data s rest h
  have hdigits := List.length_dropWhile_le isHexText data
  unfold readHex? at h
  split at h
  · rename_i hclose
    cases h
    rw [hclose, List.length_cons] at hdigits
    omega
  · cases h

theorem advances_readKeyword? : Advances readKeyword? := by
  intro data o rest h
  obtain ⟨word, hword, h⟩ := Option.bind_eq_some_iff.mp h
  obtain ⟨_, -, hrest⟩ := Option.bind_eq_some_iff.mp h
  cases hrest
  exact length_lt_of_keyword? hword

theorem advances_readNumeric? (mode : Mode) : Advances (readNumeric? mode) := by
  intro data o rest h
  simp only [readNumeric?] at h
  split at h
  · rename_i hreference
    cases h
    split at hreference
    · cases hreference
    · exact advances_readReference? _ _ _ hreference
  · obtain ⟨⟨_, _⟩, hread, hrest⟩ := Option.map_eq_some_iff.mp h
    cases hrest
    exact advances_readNumber? _ _ _ hread

/-! ## Streams -/

theorem suffix_of_readSizedStreamData? {length : Nat} {body : Bytes}
    (h : readSizedStreamData? length data = some (body, rest)) : rest <:+ data := by
  obtain ⟨⟨taken, after⟩, hsplit, h⟩ := Option.bind_eq_some_iff.mp h
  obtain ⟨_, hdrop, hrest⟩ := Option.bind_eq_some_iff.mp h
  cases hrest
  obtain ⟨-, rfl⟩ := Bytes.splitAt?_eq_some.mp hsplit
  have hafter : rest <:+ skipSpace after := ⟨_, (Bytes.dropTag?_eq_some.mp hdrop).symm⟩
  exact (hafter.trans (skipSpace_suffix after)).trans (List.suffix_append body after)

theorem length_le_of_readSizedStreamData? {length : Nat} {body : Bytes}
    (h : readSizedStreamData? length data = some (body, rest)) : rest.length ≤ data.length :=
  (suffix_of_readSizedStreamData? h).length_le

theorem length_le_of_findStreamData? {body : Bytes} (h : findStreamData? data = some (body, rest)) :
    rest.length ≤ data.length := by
  obtain ⟨⟨_, _⟩, hcut, hrest⟩ := Option.map_eq_some_iff.mp h
  cases hrest
  exact Bytes.length_le_of_cutAtTag? hcut

theorem length_le_of_readAfterDict? {mode : Mode} {d : Dict} {o : Object}
    (h : readAfterDict? mode d data = some (o, rest)) : rest.length ≤ data.length := by
  unfold readAfterDict? at h
  split at h
  · cases h
    exact le_rfl
  · split at h
    · cases h
      exact le_rfl
    · rename_i after htag
      obtain ⟨⟨_, _⟩, hread, hrest⟩ := Option.map_eq_some_iff.mp h
      cases hrest
      have hdata : rest.length ≤ (skipEndOfLine after).length := by
        rcases Option.or_eq_some_iff.mp hread with hsized | ⟨-, hfound⟩
        · obtain ⟨_, -, hsized⟩ := Option.bind_eq_some_iff.mp hsized
          exact length_le_of_readSizedStreamData? hsized
        · exact length_le_of_findStreamData? hfound
      calc rest.length ≤ (skipEndOfLine after).length := hdata
        _ ≤ after.length := length_skipEndOfLine_le after
        _ ≤ (skipSpace data).length := Bytes.length_le_of_dropTag? htag
        _ ≤ data.length := length_skipSpace_le data

/-! ## Containers and objects -/

variable {read : Bytes → Option (Object × Bytes)}

theorem advances_readItems? (hread : Advances read) (fuel : Nat) : Advances (readItems? read fuel) := by
  intro data items rest h
  induction fuel generalizing data items with
  | zero => cases h
  | succ fuel ih =>
    have hskip := length_skipSpace_le data
    rw [readItems?] at h
    split at h
    · rename_i hclose
      cases h
      exact length_lt_of_skipSpace_eq_cons hclose
    · obtain ⟨⟨_, _⟩, hitem, h⟩ := Option.bind_eq_some_iff.mp h
      obtain ⟨⟨_, _⟩, hitems, hrest⟩ := Option.bind_eq_some_iff.mp h
      cases hrest
      have := hread _ _ _ hitem
      have := ih _ _ hitems
      omega

theorem advances_readEntries? (hread : Advances read) (fuel : Nat) (d : Dict) :
    Advances (readEntries? read fuel d) := by
  intro data entries rest h
  induction fuel generalizing data d with
  | zero => cases h
  | succ fuel ih =>
    have hskip := length_skipSpace_le data
    rw [readEntries?] at h
    split at h
    · rename_i hclose
      cases h
      have := length_lt_of_skipSpace_eq_cons hclose
      simp only [List.length_cons] at this
      omega
    · obtain ⟨⟨_, _⟩, hkey, h⟩ := Option.bind_eq_some_iff.mp h
      obtain ⟨⟨_, _⟩, hvalue, h⟩ := Option.bind_eq_some_iff.mp h
      have := advances_readName? _ _ _ hkey
      have := hread _ _ _ hvalue
      have := ih _ _ h
      omega

theorem advances_readNested? (mode : Mode) (levels : Nat) : Advances (readNested? mode levels) := by
  induction levels with
  | zero => exact fun _ _ _ h => nomatch h
  | succ levels ih =>
    intro data o rest h
    have hskip := length_skipSpace_le data
    rw [readNested?] at h
    split at h
    · cases h
    · rename_i b tail hfirst
      rw [hfirst, List.length_cons] at hskip
      split at h
      · obtain ⟨⟨_, _⟩, hname, hrest⟩ := Option.map_eq_some_iff.mp h
        cases hrest
        have := advances_readName? _ _ _ hname
        simp only [List.length_cons] at this
        omega
      · split at h
        · obtain ⟨⟨_, _⟩, hspan, hrest⟩ := Option.map_eq_some_iff.mp h
          cases hrest
          have := advances_spanLiteral? _ _ _ _ hspan
          omega
        · split at h
          · obtain ⟨⟨_, _⟩, hitems, hrest⟩ := Option.map_eq_some_iff.mp h
            cases hrest
            have := advances_readItems? ih _ _ _ _ hitems
            omega
          · split at h
            · split at h
              · obtain ⟨⟨_, _⟩, hentries, hafter⟩ := Option.bind_eq_some_iff.mp h
                have := advances_readEntries? ih _ _ _ _ _ hentries
                have := length_le_of_readAfterDict? hafter
                simp only [List.length_cons] at hskip
                omega
              · obtain ⟨⟨_, _⟩, hhex, hrest⟩ := Option.map_eq_some_iff.mp h
                cases hrest
                have := advances_readHex? _ _ _ _ hhex
                omega
            · split at h
              · have := advances_readNumeric? _ _ _ _ h
                simp only [List.length_cons] at this
                omega
              · have := advances_readKeyword? _ _ _ h
                simp only [List.length_cons] at this
                omega

/-- Reading an object takes at least one byte off the data. -/
theorem advances_readObject? (mode : Mode) : Advances (readObject? mode) :=
  advances_readNested? mode _

end Syntax

end Folio
