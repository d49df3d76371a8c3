import Folio.Proofs.Asn1.Rewriting
import Folio.Proofs.Signature.RoundTrip

/-!
# Attributes that are not signed

What the unsigned attributes of a signer have an influence on. They stand after the signature, so anybody can
replace or remove them. Main statement: `parse_of_altered`, what is read apart from the timestamp stays as it is.

A reading comes to the first signer on one path (`SignerPath`), and the elements of the path are what has to
change along with the attributes inside them. Of the elements beside the path nothing changes.
-/

namespace Folio.Signature

open Asn1 Element Tree

variable {data data' : Bytes} {e x : Element} {s : SignedData} {change : Option Bytes}

/-! ## The fields of a signer -/

namespace SignerInfo

/-- Whether the signature of a signer is one of some first fields. -/
def ReachSignature (front : List Element) : Prop := 2 ≤ (splitSigned (front.drop 3)).2.length

theorem splitSigned_append {front : List Element} (h : front ≠ []) (back : List Element) :
    splitSigned (front ++ back) = ((splitSigned front).1, (splitSigned front).2 ++ back) := by
  obtain ⟨first, rest, rfl⟩ := List.exists_cons_of_ne_nil h
  rw [List.cons_append, splitSigned, splitSigned]
  split <;> rfl

theorem sequence_of_ofElement {s : SignerInfo} (h : ofElement e = .ok s) : ∃ fields, e.sequence = .ok fields := by
  obtain ⟨_, _, _, _, _, _, _, _, _, hsequence, -⟩ := ofElement_eq_ok.mp h
  exact ⟨_, hsequence⟩

/-- The fields after the signature have an influence on the timestamp at most. -/
theorem ofElement_of_reachSignature {signer signer' : Element} {front back back' : List Element} {s : SignerInfo}
    (h : ofElement signer = .ok s) (htag : signer'.tag = signer.tag)
    (hfields : signer.childList = .ok (front ++ back)) (hfields' : signer'.childList = .ok (front ++ back'))
    (hfront : ReachSignature front) : ∃ token, ofElement signer' = .ok { s with timestampToken := token } := by
  obtain ⟨version, id, digestAlgorithm, rest, signed, algorithm, signature, others, n, hsequence, hsplit, hn,
    hidentifier, hdigest, halgorithm, hsignature, hsigned, hattributes, -⟩ := ofElement_eq_ok.mp h
  obtain ⟨hsigner, hchildren⟩ := sequence_eq_ok.mp hsequence
  rw [hfields] at hchildren
  rcases front with _ | ⟨_, _ | ⟨_, _ | ⟨_, front⟩⟩⟩
  · exact absurd hfront (Nat.not_succ_le_zero 1)
  · exact absurd hfront (Nat.not_succ_le_zero 1)
  · exact absurd hfront (Nat.not_succ_le_zero 1)
  simp only [List.cons_append, Except.ok.injEq, List.cons.injEq] at hchildren
  obtain ⟨rfl, rfl, rfl, rfl⟩ := hchildren
  have htwo : 2 ≤ (splitSigned front).2.length := hfront
  have hne : front ≠ [] := by
    rintro rfl
    exact absurd htwo (Nat.not_succ_le_zero 1)
  rw [splitSigned_append hne] at hsplit
  rcases hafter : (splitSigned front).2 with _ | ⟨first, _ | ⟨second, after⟩⟩
  · rw [hafter] at htwo
    exact absurd htwo (Nat.not_succ_le_zero 1)
  · rw [hafter] at htwo
    exact absurd htwo (Nat.not_succ_le_self 1)
  rw [hafter] at hsplit
  cases hsplit
  refine ⟨((after ++ back').head?.filter fun e => e.tag == Tag.context 1).bind findTimestamp, ofElement_eq_ok.mpr
    ⟨_, _, _, front ++ back', _, algorithm, signature, after ++ back', n,
      sequence_eq_ok.mpr ⟨htag.trans hsigner, hfields'⟩, ?_, hn, hidentifier, hdigest, halgorithm, hsignature,
      hsigned, hattributes, rfl⟩⟩
  rw [splitSigned_append hne, hafter]
  rfl

end SignerInfo

/-! ## The path to the first signer -/

namespace SignedData

/-- The elements around the first signer in some data, and what stands before and after them. -/
structure SignerPath (data : Bytes) where
  info : Element
  /-- The data after the signed data. -/
  trailing : Bytes
  kind : Element
  wrapper : Element
  others : List Element
  body : Element
  afterBody : Bytes
  fields : List Element
  signers : Element
  signer : Element
  afterSigner : Bytes
  read_info : read data = .ok (info, trailing)
  info_children : info.childList = .ok (kind :: wrapper :: others)
  read_body : read wrapper.contents = .ok (body, afterBody)
  body_children : body.childList = .ok (fields ++ [signers])
  read_signer : read signers.contents = .ok (signer, afterSigner)

/-- The fields before the signers say nothing about a timestamp. -/
theorem HasFields.withToken {fields : List Element} (h : s.HasFields fields) (token : Option TimestampToken) :
    HasFields { s with signer := { s.signer with timestampToken := token } } fields := by
  obtain ⟨hset, hdigests, hcontent, hcertificates, hown⟩ := h
  exact .mk hset hdigests hcontent hcertificates hown

namespace SignerPath

/-- A reading of some data goes along their path. -/
theorem parse_eq_ok_iff (p : SignerPath data) : parse data = .ok s ↔ p.info.tag = Tag.sequence ∧
    p.kind.oid = .ok .signedData ∧ p.wrapper.tag = Tag.context 0 ∧ p.body.tag = Tag.sequence ∧
    p.signers.tag = Tag.set ∧ s.HasFields p.fields ∧ SignerInfo.ofElement p.signer = .ok s.signer := by
  have hinfo := Element.parse_eq_ok.mpr ⟨_, p.read_info⟩
  have hfirst := firstChild?_eq_some_ok.mpr ⟨_, p.read_signer⟩
  rw [SignedData.parse_eq_ok_iff]
  constructor
  · rintro ⟨info, kind, wrapper, others, body, hread, hparts, hkind, hwrapper, hbody⟩
    obtain ⟨fields, signers, signer, hbodyParts, hfields, hset, hchild, hsigner⟩ := ofElement_eq_ok_iff.mp hbody
    -- each element that is read is the one on the path
    obtain rfl := Except.ok.inj (hinfo.symm.trans hread)
    obtain ⟨hinfoTag, hchildren⟩ := sequence_eq_ok.mp hparts
    obtain ⟨rfl, rfl, rfl⟩ : p.kind = kind ∧ p.wrapper = wrapper ∧ p.others = others := by
      simpa using p.info_children.symm.trans hchildren
    obtain ⟨hwrapperTag, rest, hreadBody⟩ := explicit_eq_ok.mp hwrapper
    obtain ⟨rfl, -⟩ := Prod.mk.inj (Except.ok.inj (p.read_body.symm.trans hreadBody))
    obtain ⟨hbodyTag, hbodyChildren⟩ := sequence_eq_ok.mp hbodyParts
    obtain ⟨rfl, rfl⟩ : p.fields = fields ∧ p.signers = signers := by
      simpa using p.body_children.symm.trans hbodyChildren
    obtain rfl := Except.ok.inj (Option.some.inj (hfirst.symm.trans hchild))
    exact ⟨hinfoTag, hkind, hwrapperTag, hbodyTag, hset, hfields, hsigner⟩
  · rintro ⟨hinfoTag, hkind, hwrapperTag, hbodyTag, hset, hfields, hsigner⟩
    exact ⟨p.info, p.kind, p.wrapper, p.others, p.body, hinfo, sequence_eq_ok.mpr ⟨hinfoTag, p.info_children⟩,
      hkind, explicit_eq_ok.mpr ⟨hwrapperTag, _, p.read_body⟩, ofElement_eq_ok_iff.mpr ⟨p.fields, p.signers,
        p.signer, sequence_eq_ok.mpr ⟨hbodyTag, p.body_children⟩, hfields, hset, hfirst, hsigner⟩⟩

/-- A reading that succeeds has a path to the first signer. -/
theorem exists_of_parse (h : parse data = .ok s) :
    ∃ p : SignerPath data, signerFields? data = p.signer.childList.toOption := by
  obtain ⟨info, kind, wrapper, others, body, hinfo, hparts, -, hwrapper, hbody⟩ :=
    SignedData.parse_eq_ok_iff.mp h
  obtain ⟨fields, signers, signer, hbodyParts, -, -, hfirst, hsigner⟩ := ofElement_eq_ok_iff.mp hbody
  obtain ⟨signerParts, hsequence⟩ := SignerInfo.sequence_of_ofElement hsigner
  obtain ⟨trailing, hreadInfo⟩ := Element.parse_eq_ok.mp hinfo
  obtain ⟨-, afterBody, hreadBody⟩ := explicit_eq_ok.mp hwrapper
  obtain ⟨afterSigner, hreadSigner⟩ := firstChild?_eq_some_ok.mp hfirst
  refine ⟨⟨info, trailing, kind, wrapper, others, body, afterBody, fields, signers, signer, afterSigner, hreadInfo,
    (sequence_eq_ok.mp hparts).2, hreadBody, (sequence_eq_ok.mp hbodyParts).2, hreadSigner⟩, ?_⟩
  simp only [signerFields?, hinfo, hparts, hwrapper, hbodyParts, List.getLast?_concat, hfirst, hsequence,
    (sequence_eq_ok.mp hsequence).2, Except.toOption, Option.bind_eq_bind, Option.bind_some,
    List.getElem?_cons_succ, List.getElem?_cons_zero]

end SignerPath

/-! ## Unsigned attributes -/

/-- What stands in place of an element with other contents, or of one that is removed. With a definite length
an element has any contents; with an indefinite one they have to be elements. -/
inductive Replaced (x : Element) : Option Bytes → List Element → Prop
  | removed : Replaced x none []
  | replaced {y : Element} : y.tag = x.tag → (∀ levels, x.ReadsAt levels → y.ReadsAt levels) →
    Replaced x (some y.contents) [y]

theorem Replaced.substitutes {news : List Element} (h : Replaced x change news) (htag : x.tag ≠ 0) :
    Substitutes x news := by
  cases h with
  | removed => exact .nil x
  | replaced hsame hreads =>
    exact ⟨List.forall_mem_singleton.mpr (hsame ▸ htag), fun levels hx =>
      List.forall_mem_singleton.mpr (hreads levels hx)⟩

/-- Unsigned attributes in some data, that is, a field after the signature of the first signer. -/
structure UnsignedPlace (data : Bytes) extends SignerPath data where
  front : List Element
  attributes : Element
  back : List Element
  signer_children : signer.childList = .ok (front ++ attributes :: back)
  reachSignature : SignerInfo.ReachSignature front
  attributes_tag : attributes.tag = Tag.context 1

/-- Unsigned attributes are found wherever there are any. -/
theorem exists_unsignedPlace (h : parse data = .ok s) {front back : List Element} {attributes : Element}
    (hfields : signerFields? data = some (front ++ attributes :: back)) (hfront : SignerInfo.ReachSignature front)
    (htag : attributes.tag = Tag.context 1) :
    ∃ p : UnsignedPlace data, p.front = front ∧ p.attributes = attributes ∧ p.back = back := by
  obtain ⟨p, hchildren⟩ := SignerPath.exists_of_parse h
  rw [hfields] at hchildren
  cases hlist : p.signer.childList with
  | error => rw [hlist] at hchildren; cases hchildren
  | ok fields =>
    rw [hlist] at hchildren
    cases hchildren
    exact ⟨⟨p, front, attributes, back, hlist, hfront, htag⟩, rfl, rfl, rfl⟩

namespace UnsignedPlace

/-- Whether data is other data where the unsigned attributes have new contents, or where they are removed. The
lengths of the elements around them are adjusted. -/
inductive Altered (p : UnsignedPlace data) (change : Option Bytes) : Bytes → Prop
  | mk {news : List Element} {signer signers body wrapper info : Element} :
    Replaced p.attributes change news → Swapped p.front p.attributes news p.signer signer →
    Swapped [] p.signer [signer] p.signers signers → Swapped p.fields p.signers [signers] p.body body →
    Swapped [] p.body [body] p.wrapper wrapper → Swapped [p.kind] p.wrapper [wrapper] p.info info →
    Altered p change (info.raw ++ p.trailing)

/-- The path in the data leads through the same places, to a signer with the same first fields. -/
theorem Altered.exists_path {p : UnsignedPlace data} (h : p.Altered change data') (hparse : parse data = .ok s) :
    ∃ q : SignerPath data', q.info.tag = p.info.tag ∧ q.kind = p.kind ∧ q.wrapper.tag = p.wrapper.tag ∧
      q.body.tag = p.body.tag ∧ q.fields = p.fields ∧ q.signers.tag = p.signers.tag ∧
      q.signer.tag = p.signer.tag ∧ ∃ back, q.signer.childList = .ok (p.front ++ back) := by
  obtain ⟨-, -, hwrapperTag, hbodyTag, hsignersTag, -, hsigner⟩ := p.parse_eq_ok_iff.mp hparse
  obtain ⟨_, hsequence⟩ := SignerInfo.sequence_of_ofElement hsigner
  have hsignerTag := (sequence_eq_ok.mp hsequence).1
  obtain @⟨news, signer, signers, body, wrapper, info, hreplaced, hsigner, hsigners, hbody, hwrapper, hinfo⟩ := h
  have hnews : Substitutes p.attributes news := hreplaced.substitutes (by rw [p.attributes_tag]; decide)
  have hsignerNew : Substitutes p.signer [signer] := hsigner.substitutes hnews (by rw [hsignerTag]; decide)
  have hsignersNew : Substitutes p.signers [signers] :=
    hsigners.substitutes hsignerNew (by rw [hsignersTag]; decide)
  have hbodyNew : Substitutes p.body [body] := hbody.substitutes hsignersNew (by rw [hbodyTag]; decide)
  have hwrapperNew : Substitutes p.wrapper [wrapper] := hwrapper.substitutes hbodyNew (by rw [hwrapperTag]; decide)
  have hinfoRead : info.IsReadable := hinfo.readsAt hwrapperNew (readsAt_of_readNested p.read_info).2
  refine ⟨⟨info, p.trailing, p.kind, wrapper, p.others, body, p.afterBody, p.fields, signers, signer, p.afterSigner,
    hinfoRead.readNested_append _, hinfo.childList_eq hwrapperNew p.info_children,
    hwrapper.read_eq hbodyNew p.read_body, hbody.childList_eq hsignersNew p.body_children,
    hsigners.read_eq hsignerNew p.read_signer⟩, hinfo.tag_eq, rfl, hwrapper.tag_eq, hbody.tag_eq, rfl,
    hsigners.tag_eq, hsigner.tag_eq, news ++ p.back, hsigner.childList_eq hnews p.signer_children⟩

theorem Altered.parse_eq {p : UnsignedPlace data} (h : p.Altered change data') (hparse : parse data = .ok s) :
    ∃ token, parse data' = .ok { s with signer := { s.signer with timestampToken := token } } := by
  obtain ⟨hinfo, hkind, hwrapper, hbody, hsigners, hfields, hsigner⟩ := p.parse_eq_ok_iff.mp hparse
  obtain ⟨q, hinfo', hkind', hwrapper', hbody', hfields', hsigners', hsigner', back, hchildren⟩ :=
    h.exists_path hparse
  obtain ⟨token, htoken⟩ := SignerInfo.ofElement_of_reachSignature hsigner hsigner' p.signer_children hchildren
    p.reachSignature
  exact ⟨token, q.parse_eq_ok_iff.mpr ⟨hinfo'.trans hinfo, hkind' ▸ hkind, hwrapper'.trans hwrapper,
    hbody'.trans hbody, hsigners'.trans hsigners, hfields' ▸ hfields.withToken token, htoken⟩⟩

theorem exists_replaced {levels limit : Nat} (hx : x.ReadsAt levels)
    (h : ∀ contents ∈ change, limit + contents.length + 24 < 2 ^ 32) : ∃ news growth, Replaced x change news ∧
      (rawAll news).length ≤ x.raw.length + growth ∧ HasRoom limit growth 5 := by
  cases change with
  | none => exact ⟨[], 0, .removed, Nat.zero_le _, .inl rfl⟩
  | some contents =>
    have hlt := h contents rfl
    have hfits : contents.length < 2 ^ 32 := by omega
    obtain ⟨y, htag, rfl, hreads, hlength⟩ := exists_substitute hx hfits
    refine ⟨[y], y.contents.length + 4, .replaced htag hreads, ?_, .inr (by omega)⟩
    rw [rawAll_singleton]
    exact hlength

/-- Each of the elements around the attributes gets longer by four octets at most. -/
theorem exists_altered (p : UnsignedPlace data)
    (hsize : ∀ contents ∈ change, data.length + contents.length + 24 < 2 ^ 32) :
    ∃ data', p.Altered change data' := by
  obtain ⟨hdata, hinfoRead⟩ := readsAt_of_readNested p.read_info
  have hinfoHolds : p.info.Holds [p.kind] p.wrapper (rawAll p.others) := holds_of_childList p.info_children
  have hwrapperHolds := holds_of_read p.read_body
  have hbodyHolds := holds_of_childList p.body_children
  have hsignersHolds := holds_of_read p.read_signer
  have hsignerHolds := holds_of_childList p.signer_children
  have hinfoLe : p.info.raw.length ≤ data.length := by
    rw [congrArg List.length hdata, List.length_append]
    exact Nat.le_add_right _ _
  have hwrapperLe := (hinfoHolds.length_raw_le hinfoRead).trans hinfoLe
  have hbodyLe := (hwrapperHolds.length_raw_le hinfoHolds.readable).trans hwrapperLe
  have hsignersLe := (hbodyHolds.length_raw_le hwrapperHolds.readable).trans hbodyLe
  have hsignerLe := (hsignersHolds.length_raw_le hbodyHolds.readable).trans hsignersLe
  obtain ⟨news, growth, hreplaced, hgrowth, hroom⟩ := exists_replaced hsignerHolds.readable hsize
  obtain ⟨signer, _, hsigner, hgrowth, hroom⟩ :=
    exists_swapped hsignersHolds.readable hsignerHolds hsignerLe hgrowth hroom
  rw [← rawAll_singleton signer] at hgrowth
  obtain ⟨signers, _, hsigners, hgrowth, hroom⟩ :=
    exists_swapped hbodyHolds.readable hsignersHolds hsignersLe hgrowth hroom
  rw [← rawAll_singleton signers] at hgrowth
  obtain ⟨body, _, hbody, hgrowth, hroom⟩ :=
    exists_swapped hwrapperHolds.readable hbodyHolds hbodyLe hgrowth hroom
  rw [← rawAll_singleton body] at hgrowth
  obtain ⟨wrapper, _, hwrapper, hgrowth, hroom⟩ :=
    exists_swapped hinfoHolds.readable hwrapperHolds hwrapperLe hgrowth hroom
  rw [← rawAll_singleton wrapper] at hgrowth
  obtain ⟨info, _, hinfo, -, -⟩ := exists_swapped hinfoRead hinfoHolds hinfoLe hgrowth hroom
  exact ⟨_, .mk hreplaced hsigner hsigners hbody hwrapper hinfo⟩

end UnsignedPlace

/-- Unsigned attributes have no influence on anything but the timestamp: whatever becomes of them, the data is
read, and all else that is read stays. Contents can be altered unless the data gets too long. -/
theorem parse_of_altered (p : UnsignedPlace data) (h : parse data = .ok s) (change : Option Bytes) :
    (∀ data', p.Altered change data' →
      ∃ token, parse data' = .ok { s with signer := { s.signer with timestampToken := token } }) ∧
    ((∀ contents ∈ change, data.length + contents.length + 24 < 2 ^ 32) → ∃ data', p.Altered change data') :=
  ⟨fun _ haltered => haltered.parse_eq h, p.exists_altered⟩

/-- The empty attributes of a signer are removed, or get contents that are no elements. -/
theorem parse_of_altered_sample :
    let data := (signedDataTree [42] [0, 42] .sha256 partsTree).encode
    let s := signedDataOf [42] [0, 42] .sha256
    parse data = .ok s ∧ ∃ p : UnsignedPlace data, p.attributes.contents = [] ∧
      ∀ change ∈ [none, some [0xFF]], ∃ data', p.Altered change data' ∧
        ∃ token, parse data' = .ok { s with signer := { s.signer with timestampToken := token } } := by
  intro data s
  have hparse : parse data = .ok s := by decide +kernel
  obtain ⟨front, hfields, hfront⟩ : ∃ front : List Element,
      signerFields? data = some (front ++ (node (Tag.context 1) []).element :: []) ∧
        2 ≤ (SignerInfo.splitSigned (front.drop 3)).2.length :=
    ⟨[leaf Tag.integer [1], node Tag.sequence [nameTree [67, 65], leaf Tag.integer [0, 42]], algorithmTree .sha256,
      attributesTree, algorithmTree .sha256WithRsa, leaf Tag.octetString [0xAB]].map Tree.element,
      by decide +kernel, by decide +kernel⟩
  obtain ⟨p, -, hattributes, -⟩ := exists_unsignedPlace hparse hfields hfront (isNode_node _ _).tag_eq
  refine ⟨hparse, p, by rw [hattributes]; rfl, fun change hchange => ?_⟩
  have hsize : ∀ contents ∈ change, data.length + contents.length + 24 < 2 ^ 32 := by
    have hlength : data.length < 1000 := by decide +kernel
    intro contents hcontents
    simp only [List.mem_cons, List.not_mem_nil, or_false] at hchange
    rcases hchange with rfl | rfl
    · cases hcontents
    · cases hcontents
      simp only [List.length_cons, List.length_nil]
      omega
  obtain ⟨hpreserves, hexists⟩ := parse_of_altered p hparse change
  obtain ⟨data', haltered⟩ := hexists hsize
  exact ⟨data', haltered, hpreserves data' haltered⟩

end SignedData

end Folio.Signature
