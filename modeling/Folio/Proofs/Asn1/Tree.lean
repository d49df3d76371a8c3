import Folio.Asn1.Element
import Folio.Proofs.Bytes

/-!
# Trees of elements

A tree of elements as it is written: every node has its identifier and a form of its length. `Tree.encode`
is its encoding, `Tree.Encodable` says which trees can be read back. Main statements:
`LengthCode.readLength_append`, a length is read back from each of its forms; `Encodable.two_le_length`.
-/

namespace Folio.Asn1

/-! ## Identifiers and lengths -/

/-- Octets that go on with a long tag: all but the last one are marked. -/
inductive LongTag : Bytes → Prop
  | last {b : UInt8} : b < 0x80 → LongTag [b]
  | marked {b : UInt8} {octets : Bytes} : ¬ b < 0x80 → LongTag octets → LongTag (b :: octets)

theorem LongTag.dropLongTag_append {octets : Bytes} (h : LongTag octets) (rest : Bytes) :
    Element.dropLongTag (octets ++ rest) = .ok rest := by
  induction h with
  | last hb => simp [Element.dropLongTag, hb]
  | marked hb _ ih => simp [Element.dropLongTag, hb, ih]

/-- The octets that identify an element. -/
structure Identifier where
  tag : UInt8
  /-- The octets after the tag, if it is long. -/
  more : Bytes
  more_spells : if tag &&& 0x1F = 0x1F then LongTag more else more = []

namespace Identifier

/-- All octets of the identifier. -/
def octets (i : Identifier) : Bytes := i.tag :: i.more

theorem dropMore (i : Identifier) (rest : Bytes) :
    (if i.tag &&& 0x1F = 0x1F then Element.dropLongTag (i.more ++ rest) else .ok (i.more ++ rest)) =
      .ok rest := by
  have hmore := i.more_spells
  split
  · rename_i hlong
    rw [if_pos hlong] at hmore
    exact hmore.dropLongTag_append rest
  · rename_i hshort
    rw [if_neg hshort] at hmore
    rw [hmore, List.nil_append]

end Identifier

/-- The definite forms of a length: one octet below `80`, or one to four octets after their number. -/
inductive LengthCode : Nat → Bytes → Prop
  | short {n : Nat} : n < 0x80 → LengthCode n [n.toUInt8]
  | long {digits : Bytes} : digits ≠ [] → digits.length ≤ 4 →
    LengthCode digits.toNatBE ((0x80 + digits.length).toUInt8 :: digits)

/-- A length after the number of its octets. -/
theorem Element.readLength_count {count : Nat} (hpos : 0 < count) (hle : count ≤ 4) (data : Bytes) :
    Element.readLength ((0x80 + count).toUInt8 :: data) =
      match Bytes.splitAt? data count with
      | some (digits, rest) => .ok (some digits.toNatBE, rest)
      | none => .error .unexpectedEnd := by
  have hvalue : (0x80 + count).toUInt8.toNat = 0x80 + count := by
    rw [Nat.toUInt8, UInt8.toNat_ofNat']
    omega
  have hmarked : ¬ (0x80 + count).toUInt8 < 0x80 := by
    rw [UInt8.lt_iff_toNat_lt, hvalue]
    exact Nat.not_lt.mpr (Nat.le_add_right _ _)
  have hdefinite : (0x80 + count).toUInt8 ≠ 0x80 := by
    intro heq
    have hzero : 0x80 + count = 0x80 := hvalue.symm.trans (congrArg UInt8.toNat heq)
    omega
  have hfour : (0x80 + count).toUInt8 ≤ 0x84 := by
    rw [UInt8.le_iff_toNat_le, hvalue]
    exact Nat.add_le_add_left hle 0x80
  cases hsplit : Bytes.splitAt? data count <;>
    rw [Element.readLength, if_neg hmarked, if_neg hdefinite, if_pos hfour, hvalue, Nat.add_sub_cancel_left, hsplit]

namespace LengthCode

variable {n m : Nat} {octets : Bytes}

theorem ne_nil (h : LengthCode n octets) : octets ≠ [] := by
  cases h <;> exact List.cons_ne_nil _ _

theorem readLength_append (h : LengthCode n octets) (rest : Bytes) :
    Element.readLength (octets ++ rest) = .ok (some n, rest) := by
  cases h with
  | short h =>
    have hvalue : n.toUInt8.toNat = n := by
      rw [Nat.toUInt8, UInt8.toNat_ofNat']
      omega
    have hlt : n.toUInt8 < 0x80 := by
      rw [UInt8.lt_iff_toNat_lt, hvalue]
      exact h
    simp [Element.readLength, hlt, hvalue]
  | @long digits hne hle =>
    have hsplit : Bytes.splitAt? (digits ++ rest) digits.length = some (digits, rest) :=
      Bytes.splitAt?_eq_some.mpr ⟨rfl, rfl⟩
    rw [List.cons_append, Element.readLength_count (List.length_pos_iff.mpr hne) hle, hsplit]

/-- A length takes up to five octets. -/
theorem length_le (h : LengthCode n octets) : octets.length ≤ 5 := by
  cases h with
  | short => simp
  | long _ hle => exact Nat.succ_le_succ hle

/-- There is room in a length for a smaller number. -/
theorem exists_of_le (h : LengthCode n octets) (hle : m ≤ n) :
    ∃ others, LengthCode m others ∧ others.length = octets.length := by
  cases h with
  | short hn => exact ⟨_, .short (Nat.lt_of_le_of_lt hle hn), rfl⟩
  | @long digits hne hfour =>
    have hlength : (Bytes.ofNatBE digits.length m).length = digits.length := Bytes.length_ofNatBE _ _
    have hpos := List.length_pos_iff.mpr hne
    have hvalue : (Bytes.ofNatBE digits.length m).toNatBE = m :=
      Bytes.toNatBE_ofNatBE (Nat.lt_of_le_of_lt hle (Bytes.toNatBE_lt digits))
    have hcode := @LengthCode.long (Bytes.ofNatBE digits.length m)
      (List.ne_nil_of_length_pos (hlength.symm ▸ hpos)) (hlength.trans_le hfour)
    rw [hvalue] at hcode
    exact ⟨_, hcode, congrArg Nat.succ hlength⟩

theorem exists_of_lt (h : n < 2 ^ 32) : ∃ octets, LengthCode n octets := by
  have hcode := @LengthCode.long (Bytes.ofNatBE 4 n) (List.ne_nil_of_length_pos (by simp)) (by simp)
  rw [Bytes.toNatBE_ofNatBE h] at hcode
  exact ⟨_, hcode⟩

end LengthCode

/-! ## Trees -/

/-- An element as it is written, with the elements that it consists of. -/
inductive Tree where
  | primitive (identifier : Identifier) (length contents : Bytes)
  | definite (identifier : Identifier) (length : Bytes) (children : List Tree)
  | indefinite (identifier : Identifier) (children : List Tree)

namespace Tree

mutual

/-- The encoding of a tree. -/
def encode : Tree → Bytes
  | primitive identifier length contents => identifier.octets ++ (length ++ contents)
  | definite identifier length children => identifier.octets ++ (length ++ encodeAll children)
  | indefinite identifier children => identifier.octets ++ (0x80 :: (encodeAll children ++ [0, 0]))

/-- The encodings of some trees, one after the other. -/
def encodeAll : List Tree → Bytes
  | [] => []
  | t :: ts => t.encode ++ encodeAll ts

end

/-- The identifier of the outermost element. -/
def identifier : Tree → Identifier
  | primitive i _ _ | definite i _ _ | indefinite i _ => i

/-- The contents of the outermost element. -/
def contents : Tree → Bytes
  | primitive _ _ contents => contents
  | definite _ _ children | indefinite _ children => encodeAll children

/-- The outermost element. -/
def element (t : Tree) : Element := ⟨t.identifier.tag, t.encode, t.contents⟩

/-- Whether a tree can be read with `depth` elements of indefinite length around it, each directly inside
the one before. -/
inductive Encodable : Nat → Tree → Prop
  | primitive {depth : Nat} {identifier : Identifier} {length contents : Bytes} :
    depth ≤ Element.maxNesting → Element.isConstructedTag identifier.tag = false →
      LengthCode contents.length length → Encodable depth (primitive identifier length contents)
  | definite {depth : Nat} {identifier : Identifier} {length : Bytes} {children : List Tree} :
    depth ≤ Element.maxNesting → Element.isConstructedTag identifier.tag = true →
      LengthCode (encodeAll children).length length → (∀ t ∈ children, Encodable 0 t) →
      Encodable depth (definite identifier length children)
  -- an encoding that starts with two zero bytes would end the list of children
  | indefinite {depth : Nat} {identifier : Identifier} {children : List Tree} :
    depth ≤ Element.maxNesting → Element.isConstructedTag identifier.tag = true →
      (∀ t ∈ children, Encodable (depth + 1) t) → (∀ t ∈ children, ¬ [0, 0] <+: t.encode) →
      Encodable depth (indefinite identifier children)

variable {t : Tree} {ts : List Tree} {depth : Nat}

theorem Encodable.anti (h : t.Encodable depth) {less : Nat} (hle : less ≤ depth) :
    t.Encodable less := by
  induction h generalizing less with
  | primitive hdepth htag hlength => exact .primitive (hle.trans hdepth) htag hlength
  | definite hdepth htag hlength hchildren =>
    exact .definite (hle.trans hdepth) htag hlength hchildren
  | indefinite hdepth htag _ hmark ih =>
    exact .indefinite (hle.trans hdepth) htag (fun t ht => ih t ht (Nat.succ_le_succ hle)) hmark

theorem Encodable.two_le_length (h : t.Encodable depth) : 2 ≤ t.encode.length := by
  cases h with
  | primitive _ _ hlength =>
    have hpos := List.length_pos_iff.mpr hlength.ne_nil
    simp only [encode, Identifier.octets, List.length_append, List.length_cons]
    omega
  | definite _ _ hlength _ =>
    have hpos := List.length_pos_iff.mpr hlength.ne_nil
    simp only [encode, Identifier.octets, List.length_append, List.length_cons]
    omega
  | indefinite _ _ _ _ =>
    simp only [encode, Identifier.octets, List.length_append, List.length_cons]
    omega

theorem length_le_encodeAll (h : ∀ t ∈ ts, 2 ≤ t.encode.length) :
    ts.length ≤ (encodeAll ts).length := by
  induction ts with
  | nil => exact Nat.le_refl _
  | cons t ts ih =>
    obtain ⟨ht, hts⟩ := List.forall_mem_cons.mp h
    have hle := ih hts
    simp only [encodeAll, List.length_cons, List.length_append]
    omega

theorem length_encode_le (h : t ∈ ts) : t.encode.length ≤ (encodeAll ts).length := by
  induction ts with
  | nil => cases h
  | cons u ts ih =>
    simp only [encodeAll, List.length_append]
    rcases List.mem_cons.mp h with rfl | h
    · exact Nat.le_add_right _ _
    · exact (ih h).trans (Nat.le_add_left _ _)

end Tree

end Folio.Asn1
