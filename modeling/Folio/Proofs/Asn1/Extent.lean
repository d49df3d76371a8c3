import Folio.Proofs.Asn1.RoundTrip
import Folio.Proofs.Except

/-!
# The extent of an element

What follows an element does not matter to its reading, and where some of it is missing the data ends too
early. A step with these two properties in all that it reads is `Delimited`, and steps one after the other
are delimited together. Main statement: `delimited_readNested`, from which `consumes_raw` follows. The
children of an element of indefinite length are read by a step of a lower level, so the induction is on the
levels.
-/

namespace Folio.Asn1.Element

variable {α β : Type} {levels fuel k : Nat} {tag : UInt8} {data part rest mark : Bytes} {e : Element}

/-- A step that reads from the front of some data. -/
abbrev Step (α : Type) := Bytes → Except Error (α × Bytes)

/-- Whether a step reads exactly `part`, as `value`: it does so in front of any data, and with less than the
whole of it the data ends too early. -/
structure Consumes (read : Step α) (part : Bytes) (value : α) : Prop where
  read_append : ∀ rest, read (part ++ rest) = .ok (value, rest)
  read_take : ∀ k, k < part.length → read (part.take k) = .error .unexpectedEnd

/-- Whether all that a step reads has an extent of its own. -/
def Delimited (read : Step α) : Prop :=
  ∀ data value rest, read data = .ok (value, rest) →
    ∃ part, data = part ++ rest ∧ Consumes read part value

/-! ## Steps one after the other -/

theorem Consumes.bind {first : Step α} {second : α → Step β} {p q : Bytes} {a : α} {b : β}
    (hfirst : Consumes first p a) (hsecond : Consumes (second a) q b) :
    Consumes (fun data => first data >>= fun (a, data) => second a data) (p ++ q) b := by
  constructor
  · intro rest
    simp only [List.append_assoc, hfirst.read_append, Except.ok_bind, hsecond.read_append]
  · intro k hk
    by_cases hp : k < p.length
    · have hcut : (p ++ q).take k = p.take k := List.take_append_of_le_length (Nat.le_of_lt hp)
      simp only [hcut, hfirst.read_take k hp]
      rfl
    · have hcut : (p ++ q).take k = p ++ q.take (k - p.length) := by
        rw [List.take_append, List.take_of_length_le (Nat.le_of_not_lt hp)]
      have hq : k - p.length < q.length := by
        rw [List.length_append] at hk
        omega
      simp only [hcut, hfirst.read_append, Except.ok_bind, hsecond.read_take _ hq]

theorem Delimited.bind {first : Step α} {second : α → Step β} (hfirst : Delimited first)
    (hsecond : ∀ a, Delimited (second a)) :
    Delimited fun data => first data >>= fun (a, data) => second a data := by
  intro data value rest h
  obtain ⟨⟨a, middle⟩, hread, hrest⟩ := Except.bind_eq_ok.mp h
  obtain ⟨p, rfl, hp⟩ := hfirst _ _ _ hread
  obtain ⟨q, rfl, hq⟩ := hsecond a _ _ _ hrest
  exact ⟨p ++ q, (List.append_assoc p q rest).symm, hp.bind hq⟩

theorem Delimited.map {read : Step α} (hread : Delimited read) (f : α → β) :
    Delimited fun data => (read data).map fun (a, data) => (f a, data) := by
  intro data value rest h
  cases hdata : read data with
  | error => simp only [hdata] at h; cases h
  | ok result =>
    obtain ⟨a, rest'⟩ := result
    simp only [hdata] at h
    cases h
    obtain ⟨part, rfl, hpart⟩ := hread _ _ _ hdata
    refine ⟨part, rfl, fun rest => ?_, fun k hk => ?_⟩
    · simp only [hpart.read_append]
      rfl
    · simp only [hpart.read_take k hk]
      rfl

/-! ## The parts of an element -/

/-- The tag of an element. -/
def readTag : Step UInt8
  | [] => .error .unexpectedEnd
  | tag :: data =>
    (if tag &&& 0x1F = 0x1F then dropLongTag data else .ok data).map fun rest => (tag, rest)

theorem longTag_of_dropLongTag (h : dropLongTag data = .ok rest) :
    ∃ octets, LongTag octets ∧ data = octets ++ rest := by
  induction data with
  | nil => cases h
  | cons b data ih =>
    rw [dropLongTag] at h
    split at h
    · rename_i hb
      cases h
      exact ⟨[b], .last hb, rfl⟩
    · rename_i hb
      obtain ⟨octets, hoctets, rfl⟩ := ih h
      exact ⟨b :: octets, .marked hb hoctets, rfl⟩

theorem dropLongTag_take {octets : Bytes} (h : LongTag octets) (hk : k < octets.length) :
    dropLongTag (octets.take k) = .error .unexpectedEnd := by
  induction h generalizing k with
  | last =>
    obtain rfl : k = 0 := Nat.lt_one_iff.mp hk
    rfl
  | marked hb _ ih =>
    cases k with
    | zero => rfl
    | succ k =>
      rw [List.take_succ_cons, dropLongTag, if_neg hb]
      exact ih (Nat.lt_of_succ_lt_succ hk)

theorem consumes_readTag (i : Identifier) : Consumes readTag i.octets i.tag := by
  constructor
  · intro rest
    rw [Identifier.octets, List.cons_append, readTag, i.dropMore]
    rfl
  · intro k hk
    cases k with
    | zero => rfl
    | succ k =>
      have hmore := i.more_spells
      rw [Identifier.octets, List.length_cons] at hk
      rw [Identifier.octets, List.take_succ_cons, readTag]
      split at hmore
      · rename_i hlong
        rw [if_pos hlong, dropLongTag_take hmore (Nat.lt_of_succ_lt_succ hk)]
        rfl
      · rw [hmore, List.length_nil] at hk
        omega

theorem exists_of_readTag (h : readTag data = .ok (tag, rest)) :
    ∃ i : Identifier, i.tag = tag ∧ data = i.octets ++ rest := by
  cases data with
  | nil => cases h
  | cons b data =>
    rw [readTag] at h
    split at h
    · rename_i hlong
      cases hdrop : dropLongTag data with
      | error => rw [hdrop] at h; cases h
      | ok left =>
        rw [hdrop] at h
        cases h
        obtain ⟨octets, hoctets, rfl⟩ := longTag_of_dropLongTag hdrop
        exact ⟨⟨tag, octets, by rwa [if_pos hlong]⟩, rfl, rfl⟩
    · rename_i hshort
      cases h
      exact ⟨⟨tag, [], by rw [if_neg hshort]⟩, rfl, rfl⟩

theorem delimited_readTag : Delimited readTag := by
  intro data tag rest h
  obtain ⟨i, rfl, rfl⟩ := exists_of_readTag h
  exact ⟨i.octets, rfl, consumes_readTag i⟩

theorem splitAt?_take (hk : k < part.length) : Bytes.splitAt? (part.take k) part.length = none := by
  rw [Bytes.splitAt?, if_neg]
  rw [List.length_take]
  omega

/-- A length in one of its forms. -/
inductive LengthForm : Option Nat → Bytes → Prop
  | definite {n : Nat} {octets : Bytes} : LengthCode n octets → LengthForm (some n) octets
  | indefinite : LengthForm none [0x80]

theorem exists_of_readLength {length : Option Nat} (h : readLength data = .ok (length, rest)) :
    ∃ octets, LengthForm length octets ∧ data = octets ++ rest := by
  cases data with
  | nil => cases h
  | cons first data =>
    rw [readLength] at h
    split at h
    · rename_i hlow
      cases h
      have hcode := LengthCode.short (UInt8.lt_iff_toNat_lt.mp hlow)
      rw [Nat.toUInt8, UInt8.ofNat_toNat] at hcode
      exact ⟨[first], .definite hcode, rfl⟩
    rename_i hlow
    split at h
    · rename_i hindefinite
      cases h
      exact ⟨[first], hindefinite ▸ .indefinite, rfl⟩
    rename_i hindefinite
    split at h
    · rename_i hlong
      split at h
      · rename_i digits left hsplit
        cases h
        obtain ⟨hcount, rfl⟩ := Bytes.splitAt?_eq_some.mp hsplit
        have hdefinite : first.toNat ≠ 0x80 := fun h => hindefinite (UInt8.toNat_inj.mp h)
        rw [UInt8.lt_iff_toNat_lt] at hlow
        rw [UInt8.le_iff_toNat_le] at hlong
        have hfirst : 0x80 + digits.length = first.toNat := by
          change ¬ first.toNat < 0x80 at hlow
          omega
        have hcode := @LengthCode.long digits (List.ne_nil_of_length_pos (by omega)) (by
          change first.toNat ≤ 0x84 at hlong
          omega)
        rw [hfirst, Nat.toUInt8, UInt8.ofNat_toNat] at hcode
        exact ⟨first :: digits, .definite hcode, rfl⟩
      · cases h
    · cases h

theorem LengthForm.consumes {length : Option Nat} {octets : Bytes} (h : LengthForm length octets) :
    Consumes readLength octets length := by
  cases h with
  | definite hcode =>
    refine ⟨hcode.readLength_append, fun k hk => ?_⟩
    cases k with
    | zero => rfl
    | succ k =>
      cases hcode with
      | short => exact absurd (Nat.lt_of_succ_lt_succ hk) (Nat.not_lt_zero k)
      | long hne hle =>
        rw [List.take_succ_cons, readLength_count (List.length_pos_iff.mpr hne) hle,
          splitAt?_take (Nat.lt_of_succ_lt_succ hk)]
  | indefinite =>
    refine ⟨fun rest => rfl, fun k hk => ?_⟩
    obtain rfl : k = 0 := Nat.lt_one_iff.mp hk
    rfl

theorem delimited_readLength : Delimited readLength := by
  intro data length rest h
  obtain ⟨octets, hform, rfl⟩ := exists_of_readLength h
  exact ⟨octets, rfl, hform.consumes⟩

/-! ## Elements up to a mark -/

theorem findEnd_succ {read : Step Element} (hlength : 2 ≤ data.length) (hmark : ¬ [0, 0] <+: data) :
    findEnd read (fuel + 1) data = read data >>= fun (_, rest) => findEnd read fuel rest := by
  match data, hlength with
  | a :: b :: data, _ =>
    rw [findEnd]
    rintro rfl rfl
    exact hmark (List.prefix_append [0, 0] data)

theorem findEnd_of_length_lt {read : Step Element} (h : data.length < 2) :
    findEnd read fuel data = .error .unexpectedEnd := by
  cases fuel with
  | zero => rfl
  | succ fuel =>
    rw [findEnd.eq_def]
    dsimp only
    split
    · simp at h
    · simp at h
    · rfl

/-- Where the part of an element up to its mark ends, and that it is read with any sufficient fuel. -/
structure EndsAt (read : Step Element) (contents : Bytes) : Prop where
  findEnd_append : ∀ rest fuel, contents.length < fuel →
    findEnd read fuel (contents ++ 0 :: 0 :: rest) = .ok (0 :: 0 :: rest)
  findEnd_take : ∀ k fuel, k < contents.length + 2 →
    findEnd read fuel ((contents ++ [0, 0]).take k) = .error .unexpectedEnd

theorem EndsAt.nil (read : Step Element) : EndsAt read [] := by
  constructor
  · intro rest fuel hfuel
    obtain ⟨fuel, rfl⟩ := Nat.exists_eq_succ_of_ne_zero (Nat.ne_zero_of_lt hfuel)
    rfl
  · intro k fuel hk
    apply findEnd_of_length_lt
    rw [List.length_take]
    exact Nat.lt_of_le_of_lt (Nat.min_le_left _ _) hk

theorem EndsAt.cons {read : Step Element} {contents : Bytes} (hpart : Consumes read part e)
    (hpos : 0 < part.length) (hmark : ¬ [0, 0] <+: part ++ (contents ++ [0, 0]))
    (hends : EndsAt read contents) : EndsAt read (part ++ contents) := by
  have hlength : 2 ≤ (part ++ (contents ++ [0, 0])).length := by
    simp only [List.length_append, List.length_cons]
    omega
  constructor
  · intro rest fuel hfuel
    obtain ⟨fuel, rfl⟩ := Nat.exists_eq_succ_of_ne_zero (Nat.ne_zero_of_lt hfuel)
    have hsplit : part ++ contents ++ 0 :: 0 :: rest = part ++ (contents ++ [0, 0]) ++ rest := by simp
    have hopen : ¬ [0, 0] <+: part ++ contents ++ 0 :: 0 :: rest := by
      intro h
      rw [hsplit] at h
      exact hmark (List.prefix_of_prefix_length_le h (List.prefix_append _ rest) hlength)
    rw [findEnd_succ (by rw [hsplit, List.length_append]; omega) hopen, List.append_assoc,
      hpart.read_append]
    apply hends.findEnd_append
    rw [List.length_append] at hfuel
    omega
  · intro k fuel hk
    rw [List.append_assoc]
    -- with less than two bytes there is no room for the mark, else the first child is read
    obtain _ | fuel := fuel
    · rfl
    by_cases htwo : 2 ≤ k
    · have hopen : ¬ [0, 0] <+: (part ++ (contents ++ [0, 0])).take k := fun h =>
        hmark (h.trans (List.take_prefix _ _))
      rw [findEnd_succ (by rw [List.length_take]; omega) hopen]
      by_cases hchild : k < part.length
      · rw [List.take_append_of_le_length (Nat.le_of_lt hchild), hpart.read_take k hchild]
        rfl
      · rw [List.take_append, List.take_of_length_le (Nat.le_of_not_lt hchild), hpart.read_append]
        apply hends.findEnd_take
        rw [List.length_append] at hk
        omega
    · apply findEnd_of_length_lt
      rw [List.length_take]
      omega

/-- The elements that a step reads one after the other up to a mark, and the contents that they are read from. -/
inductive Lists (read : Step Element) : List Element → Bytes → Prop
  | nil : Lists read [] []
  | cons {part contents : Bytes} {e : Element} {es : List Element} : Consumes read part e → 0 < part.length →
    ¬ [0, 0] <+: part ++ (contents ++ [0, 0]) → Lists read es contents →
    Lists read (e :: es) (part ++ contents)

theorem Lists.endsAt {read : Step Element} {es : List Element} {contents : Bytes} (h : Lists read es contents) :
    EndsAt read contents := by
  induction h with
  | nil => exact .nil read
  | cons hpart hpos hmark _ ih => exact .cons hpart hpos hmark ih

theorem exists_of_findEnd {read : Step Element} (hread : Delimited read) (hnil : ∀ r, read [] ≠ .ok r)
    (h : findEnd read fuel data = .ok mark) : ∃ es contents rest, data = contents ++ 0 :: 0 :: rest ∧
      mark = 0 :: 0 :: rest ∧ Lists read es contents := by
  induction fuel generalizing data with
  | zero => cases h
  | succ fuel ih =>
    by_cases hmark : [0, 0] <+: data
    · obtain ⟨rest, rfl⟩ := hmark
      cases h
      exact ⟨[], [], rest, rfl, rfl, .nil⟩
    by_cases hlength : 2 ≤ data.length
    · rw [findEnd_succ hlength hmark] at h
      obtain ⟨⟨child, left⟩, hchild, hrest⟩ := Except.bind_eq_ok.mp h
      obtain ⟨part, rfl, hpart⟩ := hread _ _ _ hchild
      obtain ⟨es, contents, rest, rfl, rfl, hes⟩ := ih hrest
      refine ⟨child :: es, part ++ contents, rest, (List.append_assoc _ _ _).symm, rfl, .cons hpart ?_ ?_ hes⟩
      · refine List.length_pos_iff.mpr fun hempty => hnil (child, []) ?_
        have hnothing := hpart.read_append []
        rwa [hempty] at hnothing
      · intro h
        refine hmark (h.trans ⟨rest, ?_⟩)
        simp
    · rw [findEnd_of_length_lt (Nat.lt_of_not_le hlength)] at h
      cases h

theorem readNested_nil_ne (levels : Nat) : ∀ r, readNested levels [] ≠ .ok r := by
  intro r h
  cases levels <;> cases h

/-! ## Whole elements -/

/-- The contents of an element with a tag, after its length. -/
def readContents (levels : Nat) (tag : UInt8) (length : Option Nat) : Step Bytes := fun data =>
  match length with
  | some length =>
    match Bytes.splitAt? data length with
    | some (contents, rest) => .ok (contents, rest)
    | none => .error .unexpectedEnd
  | none =>
    if isConstructedTag tag then
      (findEnd (readNested levels) (data.length + 1) data).map fun mark => (before data mark, mark.drop 2)
    else .error .invalidLength

theorem delimited_readContents (hread : Delimited (readNested levels)) (tag : UInt8) (length : Option Nat) :
    Delimited (readContents levels tag length) := by
  intro data contents rest h
  cases length with
  | some length =>
    simp only [readContents] at h
    split at h
    · rename_i hsplit
      cases h
      obtain ⟨hcount, rfl⟩ := Bytes.splitAt?_eq_some.mp hsplit
      refine ⟨contents, rfl, fun rest => ?_, fun k hk => ?_⟩
      · simp only [readContents, Bytes.splitAt?_eq_some.mpr ⟨hcount, rfl⟩]
      · simp only [readContents, ← hcount, splitAt?_take hk]
    · cases h
  | none =>
    simp only [readContents] at h
    split at h
    · rename_i htag
      cases hfind : findEnd (readNested levels) (data.length + 1) data with
      | error => rw [hfind] at h; cases h
      | ok mark =>
        obtain ⟨es, inner, rest', rfl, rfl, hes⟩ := exists_of_findEnd hread (readNested_nil_ne levels) hfind
        have hends := hes.endsAt
        rw [hfind] at h
        cases h
        rw [before_append]
        refine ⟨inner ++ [0, 0], by simp, fun rest => ?_, fun k hk => ?_⟩
        · have hlong : inner.length < (inner ++ 0 :: 0 :: rest).length + 1 := by
            rw [List.length_append]
            omega
          simp only [readContents, if_pos htag, List.append_assoc, List.cons_append, List.nil_append,
            hends.findEnd_append rest _ hlong, before_append, Except.map, List.drop_succ_cons, List.drop_zero]
        · rw [List.length_append] at hk
          simp only [readContents, if_pos htag, hends.findEnd_take k _ hk]
          rfl
    · cases h

/-- The tag and the contents of an element. -/
def readFrame (levels : Nat) : Step (UInt8 × Bytes) := fun data =>
  readTag data >>= fun (tag, data) =>
    readLength data >>= fun (length, data) =>
      (readContents levels tag length data).map fun (contents, rest) => ((tag, contents), rest)

theorem delimited_readFrame (hread : Delimited (readNested levels)) : Delimited (readFrame levels) :=
  delimited_readTag.bind fun tag => delimited_readLength.bind fun length =>
    (delimited_readContents hread tag length).map fun contents => (tag, contents)

theorem readBody_eq (data body : Bytes) : readBody levels tag data body =
    (readLength body >>= fun (length, body) =>
      (readContents levels tag length body).map fun (contents, rest) => ((tag, contents), rest)).map
        fun (frame, rest) => (⟨frame.1, before data rest, frame.2⟩, rest) := by
  rw [readBody]
  cases readLength body with
  | error => rfl
  | ok read =>
    obtain ⟨length, body⟩ := read
    cases length with
    | some length =>
      simp only [Except.ok_bind, readContents]
      cases Bytes.splitAt? body length <;> rfl
    | none =>
      simp only [Except.ok_bind, readContents]
      cases isConstructedTag tag with
      | false => rfl
      | true =>
        simp only [Bool.not_true, Bool.false_eq_true, if_false, if_true]
        cases findEnd (readNested levels) (body.length + 1) body <;> rfl

theorem readNested_succ (data : Bytes) : readNested (levels + 1) data =
    (readFrame levels data).map fun (frame, rest) => (⟨frame.1, before data rest, frame.2⟩, rest) := by
  cases data with
  | nil => rfl
  | cons tag data =>
    rw [readNested_cons, readFrame, readTag]
    cases (if tag &&& 0x1F = 0x1F then dropLongTag data else .ok data) with
    | error => rfl
    | ok body => exact readBody_eq (tag :: data) body

theorem delimited_readNested (levels : Nat) : Delimited (readNested levels) := by
  induction levels with
  | zero =>
    intro data e rest h
    cases h
  | succ levels ih =>
    intro data e rest h
    rw [readNested_succ] at h
    cases hread : readFrame levels data with
    | error => rw [hread] at h; cases h
    | ok read =>
      rw [hread] at h
      cases h
      obtain ⟨part, rfl, hpart⟩ := delimited_readFrame ih _ _ _ hread
      have hraw : ∀ rest, before (part ++ rest) rest = part := before_append part
      refine ⟨part, rfl, fun rest => ?_, fun k hk => ?_⟩
      · simp only [readNested_succ, hpart.read_append, Except.map, hraw]
      · rw [readNested_succ, hpart.read_take k hk]
        rfl

/-! ## The encoding of an element that is read -/

/-- The encoding of an element that is read is the part of the data that it is read from. -/
theorem consumes_raw_of_readNested (h : readNested levels data = .ok (e, rest)) :
    data = e.raw ++ rest ∧ Consumes (readNested levels) e.raw e := by
  obtain ⟨part, rfl, hpart⟩ := delimited_readNested _ _ _ _ h
  have hraw : part = e.raw := by
    have hread := hpart.read_append []
    cases levels with
    | zero => cases hread
    | succ levels =>
      rw [readNested_succ] at hread
      cases hframe : readFrame levels (part ++ []) with
      | error => rw [hframe] at hread; cases hread
      | ok read =>
        rw [hframe] at hread
        simp only [Except.map, Except.ok.injEq, Prod.mk.injEq] at hread
        obtain ⟨rfl, hrest⟩ := hread
        rw [hrest, before_append]
  exact hraw ▸ ⟨rfl, hpart⟩

theorem consumes_raw (h : read data = .ok (e, rest)) : data = e.raw ++ rest ∧ Consumes read e.raw e :=
  consumes_raw_of_readNested h

theorem Consumes.parse_append (h : Consumes read part e) (rest : Bytes) : parse (part ++ rest) = .ok e := by
  rw [parse, h.read_append]
  rfl

theorem Consumes.parse_take (h : Consumes read part e) (hk : k < part.length) :
    parse (part.take k) = .error .unexpectedEnd := by
  rw [parse, h.read_take k hk]
  rfl

end Folio.Asn1.Element
