import Folio.Proofs.Asn1.Integer
import Folio.Proofs.Asn1.Oid
import Folio.Proofs.Asn1.RoundTrip
import Folio.Proofs.Asn1.Time
import Folio.Proofs.Except

/-!
# The shapes of trees

What a tree looks like that states a value, and that the value is read from its element. A node may be
written with a definite or an indefinite length; this makes no difference to a reader of its children.
Main statements: `IsNode.sequence_eq`, `IsOctets.octets_eq`, `IsOid.oid_eq`, `IsTime.time_eq`. Whether a tree
can be read is decidable.
-/

namespace Folio.Asn1

/-! ## Deciding what can be read -/

theorem lengthCode_iff {n : Nat} {octets : Bytes} : LengthCode n octets ↔
    octets = [n.toUInt8] ∧ n < 0x80 ∨ octets = (0x80 + octets.tail.length).toUInt8 :: octets.tail ∧
      octets.tail ≠ [] ∧ octets.tail.length ≤ 4 ∧ Bytes.toNatBE octets.tail = n := by
  constructor
  · intro h
    cases h with
    | short h => exact .inl ⟨rfl, h⟩
    | long hne hle => exact .inr ⟨rfl, hne, hle, rfl⟩
  · rintro (⟨rfl, h⟩ | ⟨hoctets, hne, hle, rfl⟩)
    · exact .short h
    · rw [hoctets]
      exact .long hne hle

instance (n : Nat) (octets : Bytes) : Decidable (LengthCode n octets) := decidable_of_iff' _ lengthCode_iff

namespace Tree

mutual

/-- Whether a tree can be read, as a computation. -/
def isEncodable : Nat → Tree → Bool
  | depth, primitive identifier length contents => depth ≤ Element.maxNesting &&
    !Element.isConstructedTag identifier.tag && decide (LengthCode contents.length length)
  | depth, definite identifier length children => depth ≤ Element.maxNesting &&
    Element.isConstructedTag identifier.tag && decide (LengthCode (encodeAll children).length length) &&
    areEncodable 0 children
  | depth, indefinite identifier children => depth ≤ Element.maxNesting &&
    Element.isConstructedTag identifier.tag && areEncodable (depth + 1) children &&
    children.all fun t => !([0, 0] : Bytes).isPrefixOf t.encode

/-- Whether all of some trees can be read. -/
def areEncodable : Nat → List Tree → Bool
  | _, [] => true
  | depth, t :: ts => isEncodable depth t && areEncodable depth ts

end

mutual

theorem isEncodable_iff {t : Tree} {depth : Nat} : t.isEncodable depth = true ↔ t.Encodable depth := by
  cases t with
  | primitive identifier length contents =>
    rw [isEncodable, Bool.and_eq_true, Bool.and_eq_true, decide_eq_true_iff, decide_eq_true_iff,
      Bool.not_eq_true']
    constructor
    · rintro ⟨⟨hdepth, htag⟩, hlength⟩
      exact .primitive hdepth htag hlength
    · rintro (_ | _ | _)
      exact ⟨⟨‹_›, ‹_›⟩, ‹_›⟩
  | definite identifier length children =>
    rw [isEncodable, Bool.and_eq_true, Bool.and_eq_true, Bool.and_eq_true, decide_eq_true_iff,
      decide_eq_true_iff, areEncodable_iff]
    constructor
    · rintro ⟨⟨⟨hdepth, htag⟩, hlength⟩, hchildren⟩
      exact .definite hdepth htag hlength hchildren
    · rintro (_ | _ | _)
      exact ⟨⟨⟨‹_›, ‹_›⟩, ‹_›⟩, ‹_›⟩
  | indefinite identifier children =>
    have hmark : (children.all fun t => !([0, 0] : Bytes).isPrefixOf t.encode) = true ↔
        ∀ t ∈ children, ¬ [0, 0] <+: t.encode := by
      simp only [List.all_eq_true, Bool.not_eq_true', ← List.isPrefixOf_iff_prefix, Bool.not_eq_true]
    rw [isEncodable, Bool.and_eq_true, Bool.and_eq_true, Bool.and_eq_true, decide_eq_true_iff,
      areEncodable_iff, hmark]
    constructor
    · rintro ⟨⟨⟨hdepth, htag⟩, hchildren⟩, hmark⟩
      exact .indefinite hdepth htag hchildren hmark
    · rintro (_ | _ | _)
      exact ⟨⟨⟨‹_›, ‹_›⟩, ‹_›⟩, ‹_›⟩

theorem areEncodable_iff {ts : List Tree} {depth : Nat} :
    areEncodable depth ts = true ↔ ∀ t ∈ ts, t.Encodable depth := by
  cases ts with
  | nil => simp [areEncodable]
  | cons t ts =>
    rw [areEncodable, Bool.and_eq_true, isEncodable_iff, areEncodable_iff, List.forall_mem_cons]

end
instance (depth : Nat) (t : Tree) : Decidable (t.Encodable depth) := decidable_of_iff _ isEncodable_iff

variable {t u : Tree} {ts : List Tree} {tag number : UInt8} {contents bytes : Bytes} {depth fuel : Nat}

/-! ## Leaves and nodes -/

/-- Whether a tree is a primitive element with a tag and contents. -/
inductive IsLeaf : Tree → UInt8 → Bytes → Prop
  | primitive (identifier : Identifier) (length contents : Bytes) :
    IsLeaf (primitive identifier length contents) identifier.tag contents

/-- Whether a tree is a constructed element with a tag and children. -/
inductive IsNode : Tree → UInt8 → List Tree → Prop
  | definite (identifier : Identifier) (length : Bytes) (children : List Tree) :
    IsNode (definite identifier length children) identifier.tag children
  | indefinite (identifier : Identifier) (children : List Tree) :
    IsNode (indefinite identifier children) identifier.tag children

theorem IsLeaf.tag_eq (h : IsLeaf t tag contents) : t.element.tag = tag := by
  cases h
  rfl

theorem IsLeaf.contents_eq (h : IsLeaf t tag contents) : t.element.contents = contents := by
  cases h
  rfl

namespace IsNode

theorem tag_eq (h : IsNode t tag ts) : t.element.tag = tag := by
  cases h <;> rfl

theorem contents_eq (h : IsNode t tag ts) : t.element.contents = encodeAll ts := by
  cases h <;> rfl

theorem encodable (h : IsNode t tag ts) (ht : t.Encodable depth) (hu : u ∈ ts) : u.Encodable 0 := by
  cases h with
  | definite =>
    cases ht with
    | definite _ _ _ hchildren => exact hchildren u hu
  | indefinite =>
    cases ht with
    | indefinite _ _ hchildren _ => exact (hchildren u hu).anti (Nat.zero_le _)

theorem length_encode_lt (h : IsNode t tag ts) (hu : u ∈ ts) : u.encode.length < t.encode.length := by
  have hle := length_encode_le hu
  cases h <;>
  · simp only [encode, Identifier.octets, List.length_append, List.length_cons]
    omega

theorem children_eq (h : IsNode t tag ts) (ht : t.Encodable depth) :
    t.element.children = (ts.map element, none) := by
  have hchildren : ∀ u ∈ ts, u.Encodable 0 := fun u hu => h.encodable ht hu
  have hfuel := length_le_encodeAll fun u hu => (hchildren u hu).two_le_length
  rw [Element.children, h.contents_eq, Element.readAll_encodeAll hchildren hfuel]

theorem firstChild?_eq (h : IsNode t tag (u :: ts)) (ht : t.Encodable depth) :
    t.element.firstChild? = some (.ok u.element) := by
  have hu := h.encodable ht List.mem_cons_self
  have hlength := hu.two_le_length
  have hne : (u.encode ++ encodeAll ts).isEmpty = false := by
    rw [List.isEmpty_eq_false_iff, ← List.length_pos_iff, List.length_append]
    omega
  have hread : Element.parse (u.encode ++ encodeAll ts) = .ok u.element := by
    rw [Element.parse, Element.read_encode hu]
    rfl
  rw [Element.firstChild?, h.contents_eq, encodeAll, hne, hread]
  rfl

end IsNode

theorem expect_eq (h : t.element.tag = tag) : t.element.expect tag = .ok t.element :=
  Element.expect_eq_ok.mpr ⟨h, rfl⟩

theorem IsNode.sequence_eq (h : IsNode t Tag.sequence ts) (ht : t.Encodable depth) :
    t.element.sequence = .ok (ts.map element) := by
  rw [Element.sequence, expect_eq h.tag_eq, Except.ok_bind, Element.childList, h.children_eq ht]

theorem IsNode.explicit_eq (h : IsNode t (Tag.context number) [u]) (ht : t.Encodable depth) :
    t.element.explicit number = .ok u.element := by
  rw [Element.explicit, expect_eq h.tag_eq, Except.ok_bind, h.contents_eq, encodeAll, encodeAll,
    Element.parse, Element.read_encode (h.encodable ht List.mem_cons_self)]
  rfl

/-! ## Integers -/

/-- Whether a tree is an integer with a value. -/
def IsInteger (n : Nat) (t : Tree) : Prop :=
  ∃ contents, IsLeaf t Tag.integer contents ∧ Integer.value contents = n

theorem IsInteger.integer_eq {n : Nat} (h : IsInteger n t) (hpos : 0 < n) :
    t.element.integer = .ok (Integer.octets n) := by
  obtain ⟨contents, hleaf, hvalue⟩ := h
  apply Element.integer_eq_ok.mpr
  rw [hleaf.contents_eq]
  refine ⟨hleaf.tag_eq, Integer.ne_nil_of_value_pos ?_, Integer.dropZeros_eq_octets hvalue hpos⟩
  omega

theorem IsInteger.smallInteger_eq {n : Nat} (h : IsInteger n t) (hpos : 0 < n) (hlt : n < 256) :
    t.element.smallInteger = .ok n := by
  have hinteger := h.integer_eq hpos
  obtain ⟨contents, hleaf, hvalue⟩ := h
  have hoctets : Integer.octets n = [n.toUInt8] := by
    rw [Integer.octets, Nat.digits_of_lt 256 n (Nat.ne_of_gt hpos) hlt]
    rfl
  have hbyte : n.toUInt8.toNat = n := by
    rw [Nat.toUInt8, UInt8.toNat_ofNat']
    omega
  have hread : Bytes.toNatBE [n.toUInt8] = n := by
    rw [Bytes.toNatBE, List.foldl_cons, List.foldl_nil, hbyte, Nat.zero_mul, Nat.zero_add]
  rw [hoctets] at hinteger
  apply Element.smallInteger_eq_ok.mpr
  rw [hleaf.contents_eq, hvalue]
  exact ⟨hleaf.tag_eq, Int.natCast_nonneg n, _, hinteger, (by decide : 1 ≤ 4), hread⟩

/-! ## Object identifiers -/

/-- Whether a tree is an object identifier, which has the given property. -/
def IsOid (P : Oid → Prop) (o : Oid) (t : Tree) : Prop := P o ∧ IsLeaf t Tag.objectIdentifier o.encode

theorem IsOid.oid_eq {o : Oid} (h : IsOid Oid.Fits o t) : t.element.oid = .ok o := by
  obtain ⟨hfits, hleaf⟩ := h
  rw [Element.oid, expect_eq hleaf.tag_eq, Except.ok_bind, hleaf.contents_eq, Oid.decode_encode hfits]

/-! ## Strings of bytes -/

/-- Whether a tree is a string of bytes. It may consist of parts, which are strings themselves. -/
inductive IsOctets : Bytes → Tree → Prop
  | whole {bytes : Bytes} {t : Tree} : IsLeaf t Tag.octetString bytes → IsOctets bytes t
  | parts {parts : List (Bytes × Tree)} {t : Tree} : IsNode t Tag.octetStringParts (parts.map Prod.snd) →
    (∀ part ∈ parts, IsOctets part.1 part.2) → IsOctets (parts.map Prod.fst).flatten t

theorem IsOctets.octetsWithin_eq (h : IsOctets bytes t) (ht : t.Encodable depth)
    (hfuel : t.encode.length < fuel) : t.element.octetsWithin fuel = .ok bytes := by
  induction h generalizing depth fuel with
  | whole hleaf =>
    obtain ⟨fuel, rfl⟩ := Nat.exists_eq_succ_of_ne_zero (Nat.ne_zero_of_lt hfuel)
    rw [Element.octetsWithin, if_pos hleaf.tag_eq, hleaf.contents_eq]
  | @parts parts t hnode _ ih =>
    obtain ⟨fuel, rfl⟩ := Nat.exists_eq_succ_of_ne_zero (Nat.ne_zero_of_lt hfuel)
    have hparts : ((parts.map Prod.snd).map element).mapM (Element.octetsWithin fuel) =
        .ok (parts.map Prod.fst) := by
      apply Except.mapM_eq_ok_of_forall₂
      rw [List.forall₂_map_left_iff, List.forall₂_map_left_iff, List.forall₂_map_right_iff,
        List.forall₂_same]
      intro part hpart
      have hmem := List.mem_map_of_mem (f := Prod.snd) hpart
      have hlt := hnode.length_encode_lt hmem
      exact ih part hpart (hnode.encodable ht hmem) (by omega)
    have htag : ¬ t.element.tag = Tag.octetString := by
      rw [hnode.tag_eq]
      decide
    rw [Element.octetsWithin, if_neg htag, if_pos hnode.tag_eq, hnode.children_eq ht]
    simp only [hparts, Except.ok_bind]

theorem IsOctets.octets_eq (h : IsOctets bytes t) (ht : t.Encodable depth) :
    t.element.octets = .ok bytes :=
  h.octetsWithin_eq ht (Nat.lt_succ_self _)

/-! ## Times -/

/-- Whether a tree is a valid time, in one of its two forms. -/
def IsTime (time : Time) (t : Tree) : Prop :=
  time.IsValid ∧ ((∃ text, IsLeaf t Tag.shortTime text ∧ time.ShortText text) ∨
    ∃ text, IsLeaf t Tag.longTime text ∧ time.LongText text)

theorem IsTime.time_eq {time : Time} (h : IsTime time t) : t.element.time = .ok time := by
  obtain ⟨hvalid, ⟨text, hleaf, htext⟩ | ⟨text, hleaf, htext⟩⟩ := h
  · rw [Element.time, if_pos hleaf.tag_eq, hleaf.contents_eq, Time.parseShort_eq_ok htext hvalid]
  · have htag : ¬ t.element.tag = Tag.shortTime := by
      rw [hleaf.tag_eq]
      decide
    rw [Element.time, if_neg htag, if_pos hleaf.tag_eq, hleaf.contents_eq,
      Time.parseLong_eq_ok htext hvalid]

/-! ## Encoders -/

/-- An identifier with a tag. If the tag is long, its number is zero. -/
def identifierOf (tag : UInt8) : Identifier :=
  if h : tag &&& 0x1F = 0x1F then ⟨tag, [0], by rw [if_pos h]; exact .last (by decide)⟩
  else ⟨tag, [], by rw [if_neg h]⟩

/-- The shortest form of a length. -/
def shortestLength (n : Nat) : Bytes :=
  if n < 0x80 then [n.toUInt8]
  else (0x80 + (Integer.octets n).length).toUInt8 :: Integer.octets n

/-- A primitive element with the shortest length. -/
def leaf (tag : UInt8) (contents : Bytes) : Tree :=
  primitive (identifierOf tag) (shortestLength contents.length) contents

/-- A constructed element with the shortest length. -/
def node (tag : UInt8) (ts : List Tree) : Tree :=
  definite (identifierOf tag) (shortestLength (encodeAll ts).length) ts

/-- A constructed element with an indefinite length. -/
def openNode (tag : UInt8) (ts : List Tree) : Tree := indefinite (identifierOf tag) ts

theorem tag_identifierOf (tag : UInt8) : (identifierOf tag).tag = tag := by
  unfold identifierOf
  split <;> rfl

theorem isLeaf_leaf (tag : UInt8) (contents : Bytes) : IsLeaf (leaf tag contents) tag contents := by
  have h := IsLeaf.primitive (identifierOf tag) (shortestLength contents.length) contents
  rwa [tag_identifierOf] at h

theorem isNode_node (tag : UInt8) (ts : List Tree) : IsNode (node tag ts) tag ts := by
  have h := IsNode.definite (identifierOf tag) (shortestLength (encodeAll ts).length) ts
  rwa [tag_identifierOf] at h

theorem isNode_openNode (tag : UInt8) (ts : List Tree) : IsNode (openNode tag ts) tag ts := by
  have h := IsNode.indefinite (identifierOf tag) ts
  rwa [tag_identifierOf] at h

end Tree

end Folio.Asn1
