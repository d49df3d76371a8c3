import Folio.Proofs.Asn1.Extent
import Folio.Proofs.Asn1.Integer

/-!
# Elements with other contents

What becomes of an element when one inside it gives way to others: its length is adjusted, and the rest of
its encoding stays. Main statements: `Swapped.readsAt`, it is read wherever it was read before, and
`exists_swapped`, it exists unless it is too long.

An element of indefinite length needs a level more than those inside it, so `ReadsAt` has a number of levels.
A list of elements is read from the front in one way only, whatever the levels (`eq_append_of_rawAll_eq`).
-/

namespace Folio.Asn1.Element

variable {levels more fuel : Nat} {data rest mark contents : Bytes} {e e' x y : Element}
  {es front back news : List Element}

/-! ## More levels -/

theorem findEnd_mono {read read' : Step Element} (hread : ∀ data r, read data = .ok r → read' data = .ok r)
    (h : findEnd read fuel data = .ok mark) : findEnd read' fuel data = .ok mark := by
  induction fuel generalizing data with
  | zero => cases h
  | succ fuel ih =>
    rw [findEnd.eq_def] at h ⊢
    dsimp only at h ⊢
    split at h
    · exact h
    · obtain ⟨⟨e, rest⟩, hfirst, h⟩ := Except.bind_eq_ok.mp h
      simp only [hread _ _ hfirst, Except.ok_bind, ih h]
    · cases h

/-- The identifier and the length of an element are read in one way, whatever the levels. -/
theorem readNested_eq_ok : readNested (levels + 1) data = .ok (e, rest) ↔
    ∃ (i : Identifier) (length : Option Nat) (octets body : Bytes), data = i.octets ++ (octets ++ body) ∧
      LengthForm length octets ∧ readContents levels i.tag length body = .ok (e.contents, rest) ∧
      e.tag = i.tag ∧ e.raw = before data rest := by
  constructor
  · intro h
    rw [readNested_succ] at h
    cases hframe : readFrame levels data with
    | error => rw [hframe] at h; cases h
    | ok read =>
      rw [hframe] at h
      cases h
      obtain ⟨⟨tag, left⟩, htag, hbody⟩ := Except.bind_eq_ok.mp hframe
      obtain ⟨⟨length, body⟩, hlength, hread⟩ := Except.bind_eq_ok.mp hbody
      clear hframe hbody
      obtain ⟨i, rfl, rfl⟩ := exists_of_readTag htag
      obtain ⟨octets, hform, rfl⟩ := exists_of_readLength hlength
      refine ⟨i, length, octets, body, rfl, hform, ?_⟩
      dsimp only at hread
      cases hcontents : readContents levels i.tag length body with
      | error => rw [hcontents] at hread; cases hread
      | ok result =>
        rw [hcontents] at hread
        cases hread
        exact ⟨rfl, rfl, rfl⟩
  · rintro ⟨i, length, octets, body, rfl, hform, hcontents, htag, hraw⟩
    obtain ⟨tag, raw, contents⟩ := e
    subst htag hraw
    rw [readNested_octets, readBody_eq, hform.consumes.read_append, Except.ok_bind]
    simp only [hcontents]
    rfl

theorem readContents_mono {tag : UInt8} {length : Option Nat} {r : Bytes × Bytes}
    (hread : ∀ data r, readNested levels data = .ok r → readNested more data = .ok r)
    (h : readContents levels tag length data = .ok r) : readContents more tag length data = .ok r := by
  cases length with
  | some length => exact h
  | none =>
    simp only [readContents] at h ⊢
    split at h
    · rename_i htag
      cases hfind : findEnd (readNested levels) (data.length + 1) data with
      | error => rw [hfind] at h; cases h
      | ok mark =>
        rw [hfind] at h
        rw [if_pos htag, findEnd_mono hread hfind, h]
    · cases h

theorem readNested_mono (h : readNested levels data = .ok (e, rest)) (hle : levels ≤ more) :
    readNested more data = .ok (e, rest) := by
  induction levels generalizing more data e rest with
  | zero => cases h
  | succ levels ih =>
    obtain ⟨more, rfl⟩ := Nat.exists_eq_succ_of_ne_zero (Nat.ne_zero_of_lt hle)
    obtain ⟨i, length, octets, body, hdata, hform, hcontents, hrest⟩ := readNested_eq_ok.mp h
    have hinner : ∀ data r, readNested levels data = .ok r → readNested more data = .ok r :=
      fun _ _ h => ih h (Nat.le_of_succ_le_succ hle)
    exact readNested_eq_ok.mpr ⟨i, length, octets, body, hdata, hform, readContents_mono hinner hcontents, hrest⟩

/-! ## Elements that are read from their encodings -/

/-- Whether an element is read again from its encoding, if fewer than `levels` elements of indefinite length
are nested in it. -/
def ReadsAt (levels : Nat) (e : Element) : Prop := readNested levels e.raw = .ok (e, [])

theorem readsAt_of_readNested (h : readNested levels data = .ok (e, rest)) :
    data = e.raw ++ rest ∧ e.ReadsAt levels := by
  obtain ⟨hdata, hconsumes⟩ := consumes_raw_of_readNested h
  have hread := hconsumes.read_append []
  rw [List.append_nil] at hread
  exact ⟨hdata, hread⟩

namespace ReadsAt

theorem consumes (h : e.ReadsAt levels) : Consumes (readNested levels) e.raw e :=
  (consumes_raw_of_readNested h).2

theorem readNested_append (h : e.ReadsAt levels) (rest : Bytes) :
    readNested levels (e.raw ++ rest) = .ok (e, rest) := h.consumes.read_append rest

theorem mono (h : e.ReadsAt levels) (hle : levels ≤ more) : e.ReadsAt more := readNested_mono h hle

theorem levels_pos (h : e.ReadsAt levels) : 0 < levels := by
  cases levels with
  | zero => cases h
  | succ => exact Nat.succ_pos _

theorem exists_raw_eq (h : e.ReadsAt levels) : ∃ second rest, e.raw = e.tag :: second :: rest := by
  obtain ⟨levels, rfl⟩ := Nat.exists_eq_succ_of_ne_zero (Nat.ne_of_gt h.levels_pos)
  obtain ⟨i, length, octets, body, hraw, hform, -, htag, -⟩ := readNested_eq_ok.mp h
  have hne : octets ≠ [] := by
    cases hform with
    | definite hcode => exact hcode.ne_nil
    | indefinite => exact List.cons_ne_nil _ _
  rw [hraw, htag, Identifier.octets, List.cons_append]
  cases hmore : i.more with
  | nil =>
    obtain ⟨first, others, rfl⟩ := List.exists_cons_of_ne_nil hne
    exact ⟨first, others ++ body, rfl⟩
  | cons second more => exact ⟨second, more ++ (octets ++ body), rfl⟩

theorem two_le_length (h : e.ReadsAt levels) : 2 ≤ e.raw.length := by
  obtain ⟨second, rest, hraw⟩ := h.exists_raw_eq
  rw [hraw]
  simp

end ReadsAt

/-- The element with an identifier, the octets of a length and contents. -/
def ofDefinite (i : Identifier) (length contents : Bytes) : Element :=
  ⟨i.tag, i.octets ++ (length ++ contents), contents⟩

/-- The element of indefinite length with an identifier and contents. -/
def ofIndefinite (i : Identifier) (contents : Bytes) : Element :=
  ⟨i.tag, i.octets ++ (0x80 :: (contents ++ [0, 0])), contents⟩

theorem readsAt_ofDefinite {length : Bytes} (i : Identifier) (h : LengthCode contents.length length)
    (hpos : 0 < levels) : (ofDefinite i length contents).ReadsAt levels := by
  obtain ⟨levels, rfl⟩ := Nat.exists_eq_succ_of_ne_zero (Nat.ne_of_gt hpos)
  have hread := @readNested_definite contents length levels i h []
  rwa [List.append_nil] at hread

/-! ## Lists of elements -/

/-- The encodings of some elements, one after the other. -/
def rawAll (es : List Element) : Bytes := es.flatMap raw

@[simp] theorem rawAll_nil : rawAll [] = [] := rfl

@[simp] theorem rawAll_cons (e : Element) (es : List Element) : rawAll (e :: es) = e.raw ++ rawAll es := rfl

@[simp] theorem rawAll_singleton (e : Element) : rawAll [e] = e.raw := by
  rw [rawAll_cons, rawAll_nil, List.append_nil]

@[simp] theorem rawAll_append (es fs : List Element) : rawAll (es ++ fs) = rawAll es ++ rawAll fs :=
  List.flatMap_append

/-- Whether an element can stand in the contents of one of indefinite length, that is, whether it is read
there and does not look like the mark at their end. -/
def IsListed (levels : Nat) (e : Element) : Prop := e.ReadsAt levels ∧ ¬ [0, 0] <+: e.raw

theorem lists_iff : Lists (readNested levels) es contents ↔
    contents = rawAll es ∧ ∀ e ∈ es, e.IsListed levels := by
  constructor
  · intro h
    induction h with
    | nil => exact ⟨rfl, by simp⟩
    | @cons part contents e es hpart _ hmark _ ih =>
      obtain ⟨rfl, hes⟩ := ih
      obtain ⟨hraw, he⟩ := readsAt_of_readNested (hpart.read_append [])
      rw [List.append_cancel_right_eq] at hraw
      subst hraw
      have hlisted : e.IsListed levels := ⟨he, fun h => hmark (h.trans (List.prefix_append _ _))⟩
      exact ⟨rfl, List.forall_mem_cons.mpr ⟨hlisted, hes⟩⟩
  · rintro ⟨rfl, hes⟩
    induction es with
    | nil => exact .nil
    | cons e es ih =>
      obtain ⟨⟨he, hmark⟩, hes⟩ := List.forall_mem_cons.mp hes
      have htwo := he.two_le_length
      refine .cons he.consumes (Nat.lt_of_lt_of_le Nat.zero_lt_two htwo) (fun h => hmark ?_) (ih hes)
      exact List.prefix_of_prefix_length_le h (List.prefix_append _ _) htwo

theorem exists_of_readContents_none {tag : UInt8} (h : readContents levels tag none data = .ok (contents, rest)) :
    isConstructedTag tag = true ∧ data = contents ++ 0 :: 0 :: rest ∧
      ∃ es, contents = rawAll es ∧ ∀ e ∈ es, e.IsListed levels := by
  simp only [readContents] at h
  split at h
  · rename_i htag
    cases hfind : findEnd (readNested levels) (data.length + 1) data with
    | error => rw [hfind] at h; cases h
    | ok mark =>
      obtain ⟨es, inner, rest', rfl, rfl, hes⟩ :=
        exists_of_findEnd (delimited_readNested levels) (readNested_nil_ne levels) hfind
      rw [hfind] at h
      simp only [Except.map, before_append, List.drop_succ_cons, List.drop_zero, Except.ok.injEq,
        Prod.mk.injEq] at h
      obtain ⟨rfl, rfl⟩ := h
      exact ⟨htag, rfl, es, lists_iff.mp hes⟩
  · cases h

/-- An element that is read has one of two forms. -/
theorem ReadsAt.form (h : e.ReadsAt levels) : ∃ i : Identifier,
    (∃ length, LengthCode e.contents.length length ∧ e = ofDefinite i length e.contents) ∨
      e = ofIndefinite i e.contents := by
  obtain ⟨levels, rfl⟩ := Nat.exists_eq_succ_of_ne_zero (Nat.ne_of_gt h.levels_pos)
  obtain ⟨i, length, octets, body, hraw, hform, hcontents, htag, -⟩ := readNested_eq_ok.mp h
  obtain ⟨tag, raw, contents⟩ := e
  dsimp only at htag hraw hcontents
  subst htag hraw
  refine ⟨i, ?_⟩
  cases hform with
  | definite hcode =>
    simp only [readContents] at hcontents
    split at hcontents
    · rename_i hsplit
      cases hcontents
      obtain ⟨rfl, rfl⟩ := Bytes.splitAt?_eq_some.mp hsplit
      exact .inl ⟨octets, hcode, by rw [ofDefinite, List.append_nil]⟩
    · cases hcontents
  | indefinite =>
    obtain ⟨-, rfl, -⟩ := exists_of_readContents_none hcontents
    exact .inr rfl

theorem readsAt_ofIndefinite_iff {i : Identifier} : (ofIndefinite i contents).ReadsAt (levels + 1) ↔
    isConstructedTag i.tag = true ∧ ∃ es, contents = rawAll es ∧ ∀ e ∈ es, e.IsListed levels := by
  constructor
  · intro h
    rw [ReadsAt, ofIndefinite, readNested_octets, readBody_eq] at h
    change ((readContents levels i.tag none (contents ++ [0, 0])).map _).map _ = _ at h
    cases hcontents : readContents levels i.tag none (contents ++ [0, 0]) with
    | error => rw [hcontents] at h; cases h
    | ok read =>
      obtain ⟨inner, rest⟩ := read
      rw [hcontents] at h
      simp only [Except.map, Except.ok.injEq, Prod.mk.injEq, mk.injEq] at h
      obtain ⟨⟨-, -, rfl⟩, rfl⟩ := h
      obtain ⟨htag, -, hes⟩ := exists_of_readContents_none hcontents
      exact ⟨htag, hes⟩
  · rintro ⟨htag, es, rfl, hes⟩
    have hfuel : (rawAll es).length < (rawAll es ++ 0 :: 0 :: []).length + 1 := by
      rw [List.length_append]
      omega
    have hread := readNested_indefinite i htag ((lists_iff.mpr ⟨rfl, hes⟩).endsAt.findEnd_append [] _ hfuel)
    rwa [List.append_nil] at hread

/-- Elements are read from the front of others in one way only. -/
theorem eq_append_of_rawAll_eq (hfront : ∀ e ∈ front, e.ReadsAt levels) (hes : ∀ e ∈ es, e.ReadsAt levels)
    (h : rawAll es = rawAll front ++ rest) : ∃ back, es = front ++ back ∧ rest = rawAll back := by
  induction front generalizing es with
  | nil => exact ⟨es, rfl, h.symm⟩
  | cons e front ih =>
    obtain ⟨he, hfront⟩ := List.forall_mem_cons.mp hfront
    rw [rawAll_cons, List.append_assoc] at h
    cases es with
    | nil =>
      obtain ⟨second, others, hraw⟩ := he.exists_raw_eq
      rw [hraw] at h
      cases h
    | cons first es =>
      obtain ⟨hfirst, hothers⟩ := List.forall_mem_cons.mp hes
      have hread := hfirst.readNested_append (rawAll es)
      rw [← rawAll_cons, h, he.readNested_append] at hread
      simp only [Except.ok.injEq, Prod.mk.injEq] at hread
      obtain ⟨rfl, hback⟩ := hread
      obtain ⟨back, rfl, hrest⟩ := ih hfront hothers hback.symm
      exact ⟨back, rfl, hrest⟩

/-! ## Children -/

/-- Whether an element is read again from its encoding. -/
abbrev IsReadable (e : Element) : Prop := e.ReadsAt (maxNesting + 1)

theorem readAll_eq_iff (hfuel : data.length ≤ fuel) :
    readAll fuel data = (es, none) ↔ data = rawAll es ∧ ∀ e ∈ es, e.IsReadable := by
  constructor
  · intro h
    induction fuel generalizing data es with
    | zero =>
      cases h
      exact ⟨List.length_eq_zero_iff.mp (Nat.le_zero.mp hfuel), by simp⟩
    | succ fuel ih =>
      rw [readAll] at h
      split at h
      · rename_i hempty
        cases h
        exact ⟨List.isEmpty_iff.mp hempty, by simp⟩
      · cases hread : read data with
        | error => rw [hread] at h; cases h
        | ok r =>
          obtain ⟨e, rest⟩ := r
          rw [hread] at h
          obtain ⟨rfl, he⟩ := readsAt_of_readNested hread
          cases hothers : readAll fuel rest with
          | mk others error =>
            simp only [hothers, Prod.mk.injEq] at h
            obtain ⟨rfl, rfl⟩ := h
            have htwo := he.two_le_length
            rw [List.length_append] at hfuel
            obtain ⟨rfl, hes⟩ := ih (by omega) hothers
            exact ⟨rfl, List.forall_mem_cons.mpr ⟨he, hes⟩⟩
  · rintro ⟨rfl, hes⟩
    induction es generalizing fuel with
    | nil => cases fuel <;> rfl
    | cons e es ih =>
      obtain ⟨he, hes⟩ := List.forall_mem_cons.mp hes
      have htwo := he.two_le_length
      rw [rawAll_cons, List.length_append] at hfuel
      obtain ⟨fuel, rfl⟩ := Nat.exists_eq_succ_of_ne_zero (show fuel ≠ 0 by omega)
      have hne : (e.raw ++ rawAll es).isEmpty = false := by
        rw [List.isEmpty_eq_false_iff, ← List.length_pos_iff, List.length_append]
        omega
      have hread : read (e.raw ++ rawAll es) = .ok (e, rawAll es) := he.readNested_append _
      rw [rawAll_cons, readAll, hne]
      have hrest : (rawAll es).length ≤ fuel := by omega
      simp only [Bool.false_eq_true, if_false, hread, ih hes hrest]

theorem childList_eq_ok_iff : e.childList = .ok es ↔ e.contents = rawAll es ∧ ∀ x ∈ es, x.IsReadable := by
  rw [← readAll_eq_iff (Nat.le_refl _), childList, children]
  cases readAll e.contents.length e.contents with
  | mk found error => cases error <;> simp

theorem parse_eq_ok : parse data = .ok e ↔ ∃ rest, read data = .ok (e, rest) := by
  rw [parse]
  cases read data with
  | error => simp [Except.map]
  | ok r =>
    obtain ⟨first, rest⟩ := r
    simp [Except.map]

theorem sequence_eq_ok : e.sequence = .ok es ↔ e.tag = Tag.sequence ∧ e.childList = .ok es := by
  simp only [sequence, Except.bind_eq_ok, expect_eq_ok]
  constructor
  · rintro ⟨_, ⟨htag, rfl⟩, hes⟩
    exact ⟨htag, hes⟩
  · rintro ⟨htag, hes⟩
    exact ⟨e, ⟨htag, rfl⟩, hes⟩

theorem explicit_eq_ok {number : UInt8} :
    e.explicit number = .ok x ↔ e.tag = Tag.context number ∧ ∃ rest, read e.contents = .ok (x, rest) := by
  simp only [explicit, Except.bind_eq_ok, expect_eq_ok, ← parse_eq_ok]
  constructor
  · rintro ⟨_, ⟨htag, rfl⟩, hx⟩
    exact ⟨htag, hx⟩
  · rintro ⟨htag, hx⟩
    exact ⟨e, ⟨htag, rfl⟩, hx⟩

theorem firstChild?_eq_some_ok : e.firstChild? = some (.ok x) ↔ ∃ rest, read e.contents = .ok (x, rest) := by
  rw [← parse_eq_ok, firstChild?]
  cases e.contents with
  | nil => exact ⟨nofun, nofun⟩
  | cons => simp

/-! ## Other contents -/

/-- Whether an element is another one with other contents. Its identifier stays, as does an indefinite length;
a definite one may have any form. -/
inductive Rewritten (contents : Bytes) : Element → Element → Prop
  | definite {i : Identifier} {old new inner : Bytes} : LengthCode inner.length old →
    LengthCode contents.length new → Rewritten contents (ofDefinite i old inner) (ofDefinite i new contents)
  | indefinite {i : Identifier} {inner : Bytes} :
    Rewritten contents (ofIndefinite i inner) (ofIndefinite i contents)

/-- Whether the contents of an element are the elements of `front`, the element `x` and other data. -/
structure Holds (e : Element) (front : List Element) (x : Element) (rest : Bytes) : Prop where
  contents_eq : e.contents = rawAll front ++ (x.raw ++ rest)
  front_readable : ∀ y ∈ front, y.IsReadable
  readable : x.IsReadable

theorem holds_of_childList (h : e.childList = .ok (front ++ x :: back)) : e.Holds front x (rawAll back) := by
  obtain ⟨hcontents, hes⟩ := childList_eq_ok_iff.mp h
  simp only [List.forall_mem_append, List.forall_mem_cons] at hes
  exact ⟨by rw [hcontents, rawAll_append, rawAll_cons], hes.1, hes.2.1⟩

theorem holds_of_read (h : read e.contents = .ok (x, rest)) : e.Holds [] x rest := by
  obtain ⟨hcontents, hx⟩ := readsAt_of_readNested h
  exact ⟨hcontents, by simp, hx⟩

/-- Whether an element is `e` with elements `news` in place of `x`, which comes after those of `front` in its
contents. -/
def Swapped (front : List Element) (x : Element) (news : List Element) (e e' : Element) : Prop :=
  ∃ rest, e.Holds front x rest ∧ Rewritten (rawAll front ++ (rawAll news ++ rest)) e e'

/-- Whether elements can stand wherever a given one does: they are read there, and none looks like the mark
at the end of contents. -/
structure Substitutes (x : Element) (news : List Element) : Prop where
  tag_ne : ∀ y ∈ news, y.tag ≠ 0
  readsAt : ∀ levels, x.ReadsAt levels → ∀ y ∈ news, y.ReadsAt levels

theorem Substitutes.nil (x : Element) : Substitutes x [] := ⟨by simp, by simp⟩

theorem Substitutes.isListed (h : Substitutes x news) (hx : x.ReadsAt levels) (hy : y ∈ news) :
    y.IsListed levels := by
  have hread := h.readsAt levels hx y hy
  refine ⟨hread, fun hmark => h.tag_ne y hy ?_⟩
  obtain ⟨second, rest, hraw⟩ := hread.exists_raw_eq
  rw [hraw] at hmark
  exact (List.cons_prefix_cons.mp hmark).1.symm

namespace Swapped

theorem tag_eq (h : Swapped front x news e e') : e'.tag = e.tag := by
  obtain ⟨rest, -, hrewritten⟩ := h
  cases hrewritten <;> rfl

theorem contents_eq (h : Swapped front x news e e') (hholds : e.Holds front x rest) :
    e'.contents = rawAll front ++ (rawAll news ++ rest) := by
  obtain ⟨rest', hholds', hrewritten⟩ := h
  have hrest := hholds'.contents_eq
  rw [hholds.contents_eq, List.append_cancel_left_eq, List.append_cancel_left_eq] at hrest
  rw [hrest]
  cases hrewritten <;> rfl

/-- The element around others is read wherever it was. -/
theorem readsAt (h : Swapped front x news e e') (hnews : Substitutes x news) (he : e.ReadsAt levels) :
    e'.ReadsAt levels := by
  obtain ⟨rest, ⟨hcontents, hfront, hx⟩, hrewritten⟩ := h
  cases hrewritten with
  | definite _ hnew => exact readsAt_ofDefinite _ hnew he.levels_pos
  | @indefinite i inner =>
    obtain ⟨levels, rfl⟩ := Nat.exists_eq_succ_of_ne_zero (Nat.ne_of_gt he.levels_pos)
    obtain ⟨htag, es, rfl, hes⟩ := readsAt_ofIndefinite_iff.mp he
    -- the levels inside may be more or fewer than those of a reading on its own
    have hall : ∀ y ∈ es, y.ReadsAt (max levels (maxNesting + 1)) :=
      fun y hy => (hes y hy).1.mono (Nat.le_max_left _ _)
    have hpart : ∀ y ∈ front ++ [x], y.ReadsAt (max levels (maxNesting + 1)) := by
      simp only [List.forall_mem_append, List.forall_mem_singleton]
      exact ⟨fun y hy => (hfront y hy).mono (Nat.le_max_right _ _), hx.mono (Nat.le_max_right _ _)⟩
    have hraw : rawAll es = rawAll (front ++ [x]) ++ rest := by
      rw [rawAll_append, rawAll_singleton, List.append_assoc]
      exact hcontents
    obtain ⟨back, rfl, rfl⟩ := eq_append_of_rawAll_eq hpart hall hraw
    refine readsAt_ofIndefinite_iff.mpr ⟨htag, front ++ (news ++ back), by simp, ?_⟩
    simp only [List.forall_mem_append, List.forall_mem_singleton] at hes ⊢
    exact ⟨hes.1.1, fun y hy => hnews.isListed hes.1.2.1 hy, hes.2⟩

/-- The element around others can stand wherever it did. -/
theorem substitutes (h : Swapped front x news e e') (hnews : Substitutes x news) (htag : e.tag ≠ 0) :
    Substitutes e [e'] := by
  refine ⟨?_, fun levels he => ?_⟩
  · rw [List.forall_mem_singleton, h.tag_eq]
    exact htag
  · rw [List.forall_mem_singleton]
    exact h.readsAt hnews he

theorem childList_eq (h : Swapped front x news e e') (hnews : Substitutes x news)
    (hchildren : e.childList = .ok (front ++ x :: back)) : e'.childList = .ok (front ++ (news ++ back)) := by
  have hholds := holds_of_childList hchildren
  obtain ⟨-, hes⟩ := childList_eq_ok_iff.mp hchildren
  simp only [List.forall_mem_append, List.forall_mem_cons] at hes
  rw [childList_eq_ok_iff, h.contents_eq hholds]
  simp only [rawAll_append, List.forall_mem_append]
  exact ⟨trivial, hes.1, hnews.readsAt _ hes.2.1, hes.2.2⟩

theorem read_eq (h : Swapped [] x [y] e e') (hnews : Substitutes x [y])
    (hread : read e.contents = .ok (x, rest)) : read e'.contents = .ok (y, rest) := by
  have hholds := holds_of_read hread
  have hy := hnews.readsAt _ hholds.readable y List.mem_cons_self
  rw [h.contents_eq hholds, rawAll_nil, List.nil_append, rawAll_singleton]
  exact hy.readNested_append rest

end Swapped

/-! ## Room for other contents -/

theorem ReadsAt.length_contents_le (h : e.ReadsAt levels) : e.contents.length ≤ e.raw.length := by
  obtain ⟨i, ⟨length, -, he⟩ | he⟩ := h.form <;>
  · rw [he]
    simp only [ofDefinite, ofIndefinite, List.length_append, List.length_cons]
    omega

/-- A length of four octets has room for all contents that are read. -/
theorem exists_rewritten (he : e.ReadsAt levels)
    (hfits : contents.length ≤ e.contents.length ∨ contents.length < 2 ^ 32) : ∃ e', Rewritten contents e e' ∧
      e'.raw.length ≤ e.raw.length + (contents.length - e.contents.length) + 4 ∧
      (contents.length ≤ e.contents.length → e'.raw.length ≤ e.raw.length) := by
  obtain ⟨i, ⟨length, hlength, he⟩ | he⟩ := he.form
  · have hpos := List.length_pos_iff.mpr hlength.ne_nil
    by_cases hle : contents.length ≤ e.contents.length
    · obtain ⟨new, hnew, hsame⟩ := hlength.exists_of_le hle
      refine ⟨ofDefinite i new contents, he ▸ .definite hlength hnew, ?_⟩
      rw [he]
      simp only [ofDefinite, List.length_append]
      omega
    · obtain ⟨new, hnew⟩ := LengthCode.exists_of_lt (hfits.resolve_left hle)
      have hfive := hnew.length_le
      refine ⟨ofDefinite i new contents, he ▸ .definite hlength hnew, ?_⟩
      rw [he]
      simp only [ofDefinite, List.length_append] at hle ⊢
      omega
  · refine ⟨ofIndefinite i contents, he ▸ .indefinite, ?_⟩
    rw [he]
    simp only [ofIndefinite, List.length_append, List.length_cons]
    omega

theorem Holds.length_raw_le (h : e.Holds front x rest) (he : e.ReadsAt levels) :
    x.raw.length ≤ e.raw.length := by
  have hle := he.length_contents_le
  rw [h.contents_eq, List.length_append, List.length_append] at hle
  omega

/-- Whether `steps` elements, each around the one before, have room for one that gets longer. Their lengths are
at most `limit` and may get longer by four octets each. -/
def HasRoom (limit growth steps : Nat) : Prop := growth = 0 ∨ limit + growth + 4 * steps < 2 ^ 32

theorem exists_swapped {limit growth steps : Nat} (he : e.ReadsAt levels) (hholds : e.Holds front x rest)
    (hlimit : e.raw.length ≤ limit) (hgrowth : (rawAll news).length ≤ x.raw.length + growth)
    (hroom : HasRoom limit growth (steps + 1)) : ∃ e' growth', Swapped front x news e e' ∧
      e'.raw.length ≤ e.raw.length + growth' ∧ HasRoom limit growth' steps := by
  have hle := he.length_contents_le
  have hlength : e.contents.length = (rawAll front).length + (x.raw.length + rest.length) := by
    rw [hholds.contents_eq, List.length_append, List.length_append]
  have hnew : (rawAll front ++ (rawAll news ++ rest)).length =
      (rawAll front).length + ((rawAll news).length + rest.length) := by
    rw [List.length_append, List.length_append]
  have hfits : (rawAll front ++ (rawAll news ++ rest)).length ≤ e.contents.length ∨
      (rawAll front ++ (rawAll news ++ rest)).length < 2 ^ 32 := by
    rcases hroom with hzero | hlt <;> omega
  obtain ⟨e', hrewritten, hgrow, hshrink⟩ := exists_rewritten he hfits
  rcases hroom with hzero | hlt
  · exact ⟨e', 0, ⟨rest, hholds, hrewritten⟩, hshrink (by omega), .inl rfl⟩
  · exact ⟨e', growth + 4, ⟨rest, hholds, hrewritten⟩, by omega, .inr (by omega)⟩

/-- With a definite length, an element may have any contents. -/
theorem exists_substitute (hx : x.ReadsAt levels) (h : contents.length < 2 ^ 32) : ∃ y : Element,
    y.tag = x.tag ∧ y.contents = contents ∧ (∀ levels, x.ReadsAt levels → y.ReadsAt levels) ∧
      y.raw.length ≤ x.raw.length + contents.length + 4 := by
  obtain ⟨new, hnew⟩ := LengthCode.exists_of_lt h
  have hfive := hnew.length_le
  obtain ⟨i, ⟨length, hlength, hform⟩ | hform⟩ := hx.form
  · have hpos := List.length_pos_iff.mpr hlength.ne_nil
    refine ⟨ofDefinite i new contents, ?_, rfl, fun _ hx => readsAt_ofDefinite i hnew hx.levels_pos, ?_⟩
    · rw [hform]
      rfl
    · rw [hform]
      simp only [ofDefinite, List.length_append]
      omega
  · refine ⟨ofDefinite i new contents, ?_, rfl, fun _ hx => readsAt_ofDefinite i hnew hx.levels_pos, ?_⟩
    · rw [hform]
      rfl
    · rw [hform]
      simp only [ofDefinite, ofIndefinite, List.length_append, List.length_cons]
      omega

end Folio.Asn1.Element
