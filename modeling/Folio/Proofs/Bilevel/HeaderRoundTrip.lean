import Folio.Proofs.Bilevel.SegmentFormat

/-!
# Writing segment headers

An encoder for segment headers. A header leaves some choices to it: the type among those of one kind, the
width of the page number, whether the number of references stands in three bits or in a field of its own,
and the marks for the segments that are still needed. Main statement: `read_encode_append`, a header is
read back from each of its encodings, and what follows the encoding is left.
-/

namespace Folio.Bilevel

/-- The types of the segments of a kind. -/
def SegmentKind.types : SegmentKind → List Nat
  | pageInformation => [48]
  | endOfPage => [49]
  | endOfStripe => [50]
  | endOfFile => [51]
  | genericRegion false => [36]
  | genericRegion true => [38, 39]
  | unsupported false => [0, 4, 16, 20, 40]
  | unsupported true => [6, 7, 22, 23, 42, 43]
  | ignored => [52, 53, 54, 62]

theorem SegmentKind.mem_types {kind : SegmentKind} {type : Nat} : type ∈ kind.types ↔ ofType? type = some kind := by
  constructor
  · have htypes : ∀ type ∈ kind.types, ofType? type = some kind := by
      cases kind with
      | genericRegion immediate => cases immediate <;> decide
      | unsupported paints => cases paints <;> decide
      | _ => decide
    exact htypes type
  · intro h
    unfold ofType? at h
    split_ifs at h <;>
    · cases h
      simpa only [types, List.mem_singleton]

theorem SegmentKind.lt_of_mem_types {kind : SegmentKind} {type : Nat} (h : type ∈ kind.types) : type < 64 := by
  have htypes : ∀ type ∈ kind.types, type < 64 := by
    cases kind with
    | genericRegion immediate => cases immediate <;> decide
    | unsupported paints => cases paints <;> decide
    | _ => decide
  exact htypes type h

/-- The form of the number of references, with the marks of the segments that are still needed. -/
inductive CountForm where
  /-- Three bits for the number and five for the marks. -/
  | short (marks : Nat)
  /-- Three bits that are set, 29 for the number, and the marks in bytes of their own. -/
  | long (marks : Bytes)

namespace CountForm

/-- Whether there is room for the number of references, and for a mark of the segment itself and of each that it
refers to. -/
inductive Fits (count : Nat) : CountForm → Prop
  | short {marks : Nat} : count ≤ 4 → marks < 2 ^ 5 → Fits count (short marks)
  | long {marks : Bytes} : count < 2 ^ 29 → marks.length = (count + 1 + 7) / 8 → Fits count (long marks)

/-- The bytes of the number of references. -/
def encode (count : Nat) : CountForm → Bytes
  | short marks => Bytes.ofNatBE 1 (count <<< 5 + marks)
  | long marks => Bytes.ofNatBE 4 (7 <<< 29 + count) ++ marks

theorem Fits.countCode {count : Nat} {form : CountForm} (h : form.Fits count) :
    CountCode count (form.encode count) := by
  cases h with
  | short hcount hmarks =>
    rw [encode, Nat.shiftLeft_eq]
    exact .short hcount hmarks
  | long hcount hmarks =>
    rw [encode, Nat.shiftLeft_eq]
    exact .long hcount hmarks

end CountForm

/-- What an encoder chooses for a header. -/
structure HeaderForm where
  type : Nat
  /-- The highest flag, which has no effect on the reading of the header. -/
  deferred : Bool
  /-- Whether the page number has four bytes. -/
  widePage : Bool
  count : CountForm

/-- The byte of the type and the flags. -/
def HeaderForm.flags (form : HeaderForm) : Nat :=
  form.deferred.toNat <<< 7 + form.widePage.toNat <<< 6 + form.type

theorem HeaderForm.flags_spec {form : HeaderForm} (htype : form.type < 64) : form.flags < 256 ∧
    form.flags % 64 = form.type ∧ (form.flags / 64 % 2 = 1 ↔ form.widePage = true) := by
  have hdeferred := form.deferred.toNat_lt
  have hwide := form.widePage.toNat_lt
  rw [flags, Nat.shiftLeft_eq, Nat.shiftLeft_eq, ← Bool.toNat_eq_one]
  omega

namespace SegmentHeader

/-- Whether all fields of a header can be written in a form. -/
structure FitsIn (h : SegmentHeader) (form : HeaderForm) : Prop where
  number_lt : h.number < 2 ^ 32
  type_mem : form.type ∈ h.kind.types
  count_fits : form.count.Fits h.references.length
  references_lt : ∀ target ∈ h.references, target < h.number
  page_lt : h.page < if form.widePage then 2 ^ 32 else 2 ^ 8
  /-- Only a region that is painted at once may leave its length open. -/
  length_lt : if let some length := h.length then length < 0xFFFFFFFF else h.kind = .genericRegion true

/-- The bytes of a reference in a segment with a number. -/
def encodeReference (number target : Nat) : Bytes :=
  if number ≤ 256 then Bytes.ofNatBE 1 target
  else if number ≤ 65536 then Bytes.ofNatBE 2 target
  else Bytes.ofNatBE 4 target

/-- The bytes of a header. -/
def encode (h : SegmentHeader) (form : HeaderForm) : Bytes :=
  Bytes.ofNatBE 4 h.number ++
  Bytes.ofNatBE 1 form.flags ++
  form.count.encode h.references.length ++
  h.references.flatMap (encodeReference h.number) ++
  Bytes.ofNatBE (if form.widePage then 4 else 1) h.page ++
  Bytes.ofNatBE 4 (h.length.getD 0xFFFFFFFF)

variable {h : SegmentHeader} {form : HeaderForm}

theorem referencesCode_encode {number : Nat} {targets : List Nat} (h : ∀ target ∈ targets, target < number) :
    ReferencesCode number targets (targets.flatMap (encodeReference number)) := by
  induction targets with
  | nil => exact .nil
  | cons target targets ih =>
    obtain ⟨hlt, htargets⟩ := List.forall_mem_cons.mp h
    have hcode : encodeReference number target = Bytes.ofNatBE (referenceSize number) target := by
      unfold encodeReference referenceSize
      split_ifs <;> rfl
    rw [List.flatMap_cons, hcode]
    exact .cons hlt (ih htargets)

theorem FitsIn.lengthCode (hfits : h.FitsIn form) :
    LengthCode h.kind h.length (Bytes.ofNatBE 4 (h.length.getD 0xFFFFFFFF)) := by
  have hlength := hfits.length_lt
  cases hl : h.length with
  | some length =>
    rw [hl] at hlength
    exact .known hlength
  | none =>
    rw [hl] at hlength
    have hkind : h.kind = .genericRegion true := hlength
    rw [hkind]
    exact .unknown

theorem FitsIn.headerCode (hfits : h.FitsIn form) : HeaderCode h (h.encode form) := by
  have hkind := SegmentKind.mem_types.mp hfits.type_mem
  obtain ⟨hflags, hmod, hwide⟩ := HeaderForm.flags_spec (SegmentKind.lt_of_mem_types hfits.type_mem)
  have hpage : h.page < 256 ^ (if form.flags / 64 % 2 = 1 then 4 else 1) := by
    have hlt := hfits.page_lt
    rw [if_congr hwide rfl rfl]
    split
    · rename_i hfour
      rwa [if_pos hfour] at hlt
    · rename_i hone
      rwa [if_neg hone] at hlt
  have hcode := HeaderCode.mk hfits.number_lt hflags (hmod.symm ▸ hkind) hfits.count_fits.countCode
    (referencesCode_encode hfits.references_lt) hpage hfits.lengthCode
  rw [if_congr hwide rfl rfl] at hcode
  simp only [encode, List.append_assoc]
  exact hcode

/-- A header is read back from its encoding, and no more than that is taken from the data. -/
theorem read_encode_append (hfits : h.FitsIn form) (rest : Bytes) : read (h.encode form ++ rest) = .ok (h, rest) :=
  read_eq_ok.mpr ⟨h.encode form, hfits.headerCode, rfl⟩

/-- A symbol dictionary that refers to nine segments, with numbers of two bytes. -/
def dictionaryHeader : SegmentHeader where
  number := 564
  kind := .unsupported false
  references := [1, 2, 3, 4, 5, 6, 7, 8, 563]
  page := 1025
  length := some 42

theorem read_encode_append_dictionaryHeader :
    let form : HeaderForm := ⟨0, false, true, .long [0x02, 0xFD]⟩
    dictionaryHeader.FitsIn form ∧ dictionaryHeader.encode form =
      [0x00, 0x00, 0x02, 0x34, 0x40, 0xE0, 0x00, 0x00, 0x09, 0x02, 0xFD, 0, 1, 0, 2, 0, 3, 0, 4, 0, 5, 0, 6, 0, 7,
        0, 8, 0x02, 0x33, 0x00, 0x00, 0x04, 0x01, 0x00, 0x00, 0x00, 0x2A] ∧
      read (dictionaryHeader.encode form ++ [0xE0, 0x00]) = .ok (dictionaryHeader, [0xE0, 0x00]) := by
  have hfits : dictionaryHeader.FitsIn ⟨0, false, true, .long [0x02, 0xFD]⟩ :=
    ⟨by decide, by decide, .long (by decide) rfl, by decide, by decide, (by decide : 42 < 0xFFFFFFFF)⟩
  exact ⟨hfits, by decide, read_encode_append hfits [0xE0, 0x00]⟩

end SegmentHeader

end Folio.Bilevel
