import Folio.Bilevel.Page
import Folio.Bilevel.Segment
import Folio.Proofs.Bilevel.Reader

/-!
# The format of segment headers

What a header says fixes most of its bytes. The encoder chooses the type among those of one kind, the
width of some fields, and the marks of the segments that are still needed.

Main statement: the headers that can be read are exactly those that can be written.
-/

namespace Folio.Bilevel

/-- The bytes of a number of references, with a mark for each segment that is still needed. -/
inductive CountCode : Nat → Bytes → Prop
  | short {count marks : Nat} :
    count ≤ 4 → marks < 32 → CountCode count (Bytes.ofNatBE 1 (count * 32 + marks))
  | long {count : Nat} {marks : Bytes} :
    count < 2 ^ 29 → marks.length = (count + 8) / 8 →
    CountCode count (Bytes.ofNatBE 4 (7 * 2 ^ 29 + count) ++ marks)

/-- The bytes of the references of a segment with a number, all to earlier segments. -/
inductive ReferencesCode (number : Nat) : List Nat → Bytes → Prop
  | nil : ReferencesCode number [] []
  | cons {target : Nat} {targets : List Nat} {code : Bytes} :
    target < number → ReferencesCode number targets code →
    ReferencesCode number (target :: targets)
      (Bytes.ofNatBE (SegmentHeader.referenceSize number) target ++ code)

/-- The bytes of the length of a segment's data. -/
inductive LengthCode : SegmentKind → Option Nat → Bytes → Prop
  | known {kind : SegmentKind} {length : Nat} :
    length < maxField → LengthCode kind (some length) (Bytes.ofNatBE 4 length)
  | unknown : LengthCode (.genericRegion true) none (Bytes.ofNatBE 4 maxField)

/-- The bytes of a header. -/
inductive HeaderCode (h : SegmentHeader) : Bytes → Prop
  | mk {flags : Nat} {count references length : Bytes} :
    h.number < 256 ^ 4 → flags < 256 → SegmentKind.ofType? (flags % 64) = some h.kind →
    CountCode h.references.length count → ReferencesCode h.number h.references references →
    h.page < 256 ^ (if flags / 64 % 2 = 1 then 4 else 1) → LengthCode h.kind h.length length →
    HeaderCode h (Bytes.ofNatBE 4 h.number ++ (Bytes.ofNatBE 1 flags ++ (count ++ (references ++
      (Bytes.ofNatBE (if flags / 64 % 2 = 1 then 4 else 1) h.page ++ length)))))

variable {data rest : Bytes}

theorem HeaderCode.length_pos {h : SegmentHeader} {code : Bytes} (hcode : HeaderCode h code) :
    0 < code.length := by
  cases hcode
  rw [List.length_append, Bytes.length_ofNatBE]
  exact Nat.add_pos_left (by decide) _

namespace SegmentHeader

theorem readReferenceCount_eq_ok {count : Nat} :
    readReferenceCount data = .ok (count, rest) ↔
      ∃ code, CountCode count code ∧ data = code ++ rest := by
  unfold readReferenceCount
  simp only [Reader.bind_eq_ok, Reader.number_eq_ok]
  constructor
  · rintro ⟨first, after, ⟨hfirst, rfl⟩, h⟩
    split at h
    · rename_i hshort
      obtain ⟨rfl, rfl⟩ := Reader.pure_eq_ok.mp h
      have hsum : first / 32 * 32 + first % 32 = first := Nat.div_add_mod' first 32
      exact ⟨_, .short hshort (Nat.mod_lt first (by decide)), by rw [hsum]⟩
    · split at h
      · rename_i hlong
        simp only [Reader.bind_eq_ok, Reader.number_eq_ok, Reader.bytes_eq_ok, Reader.pure_eq_ok,
          Nat.shiftLeft_eq] at h
        obtain ⟨low, after, ⟨hlow, rfl⟩, marks, after, ⟨hmarks, rfl⟩, rfl, rfl⟩ := h
        have hfield : 7 * 2 ^ 29 + (first % 32 * 2 ^ 24 + low) = first * 256 ^ 3 + low := by omega
        refine ⟨_, .long (by omega) hmarks, ?_⟩
        rw [hfield, Bytes.ofNatBE_add 1 hlow, List.append_assoc, List.append_assoc]
      · exact absurd h Reader.throw_ne_ok
  · rintro ⟨code, hcode, rfl⟩
    cases hcode with
    | @short marks hcount hmarks =>
      refine ⟨count * 32 + marks, rest, ⟨by omega, rfl⟩, ?_⟩
      have hdiv : (count * 32 + marks) / 32 = count := by omega
      rw [if_pos (by omega), hdiv]
      rfl
    | @long marks hcount hmarks =>
      -- the first byte has the highest five bits of the count
      obtain ⟨high, low, hlow, rfl⟩ : ∃ high low, low < 256 ^ 3 ∧ count = high * 256 ^ 3 + low :=
        ⟨_, _, Nat.mod_lt count (by decide), (Nat.div_add_mod' count (256 ^ 3)).symm⟩
      have hfield : 7 * 2 ^ 29 + (high * 256 ^ 3 + low) = (7 * 32 + high) * 256 ^ 3 + low := by
        omega
      have hmod : (7 * 32 + high) % 32 = high := by omega
      rw [hfield, Bytes.ofNatBE_add 1 hlow, List.append_assoc, List.append_assoc]
      refine ⟨_, _, ⟨by omega, rfl⟩, ?_⟩
      rw [if_neg (by omega), if_pos (by omega)]
      simp only [Reader.bind_eq_ok, Reader.number_eq_ok, Reader.bytes_eq_ok, Reader.pure_eq_ok,
        Nat.shiftLeft_eq, hmod]
      exact ⟨low, _, ⟨hlow, rfl⟩, marks, rest, ⟨hmarks, rfl⟩, rfl, rfl⟩

theorem lt_referenceSize {number target : Nat} (h : target < number) (hnumber : number < 256 ^ 4) :
    target < 256 ^ referenceSize number := by
  unfold referenceSize
  split
  · omega
  · split
    · omega
    · omega

theorem readReferences_eq_ok {number count : Nat} {references : List Nat}
    (hnumber : number < 256 ^ 4) :
    readReferences number count data = .ok (references, rest) ↔
      references.length = count ∧
        ∃ code, ReferencesCode number references code ∧ data = code ++ rest := by
  induction count generalizing data references with
  | zero =>
    rw [readReferences, Reader.pure_eq_ok]
    constructor
    · rintro ⟨rfl, rfl⟩
      exact ⟨rfl, [], .nil, rfl⟩
    · rintro ⟨hlen, code, hcode, rfl⟩
      cases hcode with
      | nil => exact ⟨rfl, rfl⟩
      | cons _ _ => cases hlen
  | succ count ih =>
    rw [readReferences, Reader.bind_eq_ok]
    simp only [Reader.number_eq_ok]
    constructor
    · rintro ⟨target, after, ⟨htarget, rfl⟩, h⟩
      split at h
      · rename_i hle
        obtain ⟨a, after, hthrow, -⟩ := Reader.bind_eq_ok.mp h
        exact absurd hthrow Reader.throw_ne_ok
      · rename_i hlt
        simp only [Reader.bind_eq_ok, Reader.pure_eq_ok] at h
        obtain ⟨targets, after, hread, rfl, rfl⟩ := h
        obtain ⟨rfl, code, hcode, rfl⟩ := ih.mp hread
        exact ⟨rfl, _, .cons (Nat.lt_of_not_le hlt) hcode, (List.append_assoc _ _ _).symm⟩
    · rintro ⟨hlen, code, hcode, rfl⟩
      cases hcode with
      | nil => cases hlen
      | @cons target targets code hlt hcode =>
        rw [List.length_cons, Nat.succ_inj] at hlen
        refine ⟨target, code ++ rest, ⟨lt_referenceSize hlt hnumber, List.append_assoc _ _ _⟩, ?_⟩
        rw [if_neg (Nat.not_le.mpr hlt)]
        simp only [Reader.bind_eq_ok, Reader.pure_eq_ok]
        exact ⟨targets, rest, ih.mpr ⟨hlen, code, hcode, rfl⟩, rfl, rfl⟩

theorem readLength_eq_ok {kind : SegmentKind} {length : Option Nat} :
    readLength kind data = .ok (length, rest) ↔
      ∃ code, LengthCode kind length code ∧ data = code ++ rest := by
  unfold readLength
  simp only [Reader.bind_eq_ok, Reader.number_eq_ok]
  constructor
  · rintro ⟨field, after, ⟨hfield, rfl⟩, h⟩
    split at h
    · rename_i hne
      obtain ⟨rfl, rfl⟩ := Reader.pure_eq_ok.mp h
      exact ⟨_, .known (by unfold maxField; omega), rfl⟩
    · rename_i heq
      split at h
      · rename_i hkind
        obtain ⟨rfl, rfl⟩ := Reader.pure_eq_ok.mp h
        rw [hkind, not_not.mp heq]
        exact ⟨_, .unknown, rfl⟩
      · exact absurd h Reader.throw_ne_ok
  · rintro ⟨code, hcode, rfl⟩
    cases hcode with
    | @known _ length hlength =>
      unfold maxField at hlength
      refine ⟨length, rest, ⟨by omega, rfl⟩, ?_⟩
      rw [if_pos (by omega)]
      rfl
    | unknown => exact ⟨maxField, rest, ⟨by decide, rfl⟩, rfl⟩

/-- The headers that can be read are those that can be written. -/
theorem read_eq_ok {h : SegmentHeader} :
    read data = .ok (h, rest) ↔ ∃ code, HeaderCode h code ∧ data = code ++ rest := by
  unfold read
  simp only [Reader.bind_eq_ok, Reader.number_eq_ok]
  constructor
  · rintro ⟨number, after, ⟨hnumber, rfl⟩, flags, after, ⟨hflags, rfl⟩, hread⟩
    cases hkind : SegmentKind.ofType? (flags % 64) with
    | none =>
      rw [hkind] at hread
      exact absurd hread Reader.throw_ne_ok
    | some kind =>
      simp only [hkind, Reader.bind_eq_ok, Reader.number_eq_ok, Reader.pure_eq_ok,
        readReferenceCount_eq_ok, readReferences_eq_ok hnumber, readLength_eq_ok] at hread
      obtain ⟨count, after, ⟨countCode, hcount, rfl⟩, references, after,
        ⟨rfl, referencesCode, hreferences, rfl⟩, page, after, ⟨hpage, rfl⟩, length, after,
        ⟨lengthCode, hlength, rfl⟩, rfl, rfl⟩ := hread
      refine ⟨_, .mk hnumber hflags hkind hcount hreferences hpage hlength, ?_⟩
      simp only [List.append_assoc]
  · rintro ⟨code, hcode, rfl⟩
    obtain ⟨hnumber, hflags, hkind, hcount, hreferences, hpage, hlength⟩ := hcode
    refine ⟨h.number, _, ⟨hnumber, List.append_assoc _ _ _⟩, _, _,
      ⟨hflags, List.append_assoc _ _ _⟩, ?_⟩
    simp only [hkind, Reader.bind_eq_ok, Reader.number_eq_ok, Reader.pure_eq_ok,
      readReferenceCount_eq_ok, readReferences_eq_ok hnumber, readLength_eq_ok]
    refine ⟨_, _, ⟨_, hcount, List.append_assoc _ _ _⟩, _, _,
      ⟨rfl, _, hreferences, List.append_assoc _ _ _⟩, h.page, _, ⟨hpage, List.append_assoc _ _ _⟩,
      h.length, rest, ⟨_, hlength, rfl⟩, rfl, rfl⟩

end SegmentHeader

end Folio.Bilevel
