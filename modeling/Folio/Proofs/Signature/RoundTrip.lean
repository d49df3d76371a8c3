import Folio.Proofs.Signature.Written

/-!
# Reading written signatures

Which trees signed data is written as, and that it is read back. Main statement: `parse_of_writtenAs`. The
numbers of an object identifier have to fit into 64 bits.
-/

namespace Folio.Signature.SignedData

open Asn1 Tree

variable {P : Oid → Prop} {t : Tree} {depth : Nat}

/-- Which tree the content of signed data is written as, if it is part of it. -/
inductive ContentAs : Option Bytes → Tree → Prop
  | absent {t kind : Tree} : IsNode t Tag.sequence [kind] → ContentAs none t
  | present {t kind wrapper octets : Tree} {content : Bytes} : IsNode t Tag.sequence [kind, wrapper] →
    IsNode wrapper (Tag.context 0) [octets] → IsOctets content octets → ContentAs (some content) t

/-- Which tree signed data is written as. The certificate of the signer is the first one with its issuer and
its serial number, and other signers may follow the first one. -/
inductive WrittenAs (P : Oid → Prop) : SignedData → Tree → Prop
  | mk {t kind wrapper body version digestAlgorithms contentInfo certificateSet signers signer : Tree}
    {algorithms certificateTrees others : List Tree} {revocations : Option Tree} {digestOids : List Oid}
    {content : Option Bytes} {before after : List Certificate} {own : Certificate} {info : SignerInfo} :
    IsNode t Tag.sequence [kind, wrapper] → IsOid P .signedData kind →
    IsNode wrapper (Tag.context 0) [body] →
    IsNode body Tag.sequence (version :: digestAlgorithms :: contentInfo ::
      (certificateSet :: revocations.toList ++ [signers])) →
    IsNode digestAlgorithms Tag.set algorithms →
    List.Forall₂ (fun u o => IsAlgorithm P o u) algorithms digestOids → ContentAs content contentInfo →
    IsNode certificateSet (Tag.context 0) certificateTrees →
    List.Forall₂ (fun u c => Certificate.WrittenAs P c u) certificateTrees (before ++ own :: after) →
    (∀ u ∈ revocations, u.element.tag = Tag.context 1) → IsNode signers Tag.set (signer :: others) →
    info.WrittenAs P signer →
    -- no certificate before the signer's own one is identified by the same issuer and serial number
    own.issuer = info.issuer → own.serialNumber = info.serialNumber →
    (∀ c ∈ before, ¬ (c.issuer = info.issuer ∧ c.serialNumber = info.serialNumber)) →
    WrittenAs P ⟨digestOids, content, before ++ own :: after, info, own⟩ t

theorem ContentAs.readContent_eq {content : Option Bytes} (h : ContentAs content t) (ht : t.Encodable depth) :
    readContent t.element = .ok content := by
  cases h with
  | absent hnode =>
    rw [readContent, hnode.sequence_eq ht]
    rfl
  | @present t kind wrapper octets content hnode hwrapper hoctets =>
    have hwrapperTree := hnode.encodable ht (List.mem_cons_of_mem _ List.mem_cons_self)
    have hoctetsTree := hwrapper.encodable hwrapperTree List.mem_cons_self
    simp only [readContent, hnode.sequence_eq ht, List.map_cons, liftM_ok, Except.ok_bind,
      hwrapper.explicit_eq hwrapperTree, hoctets.octets_eq hoctetsTree]
    rfl

theorem readCertificates_eq {certificateSet : Tree} {certificateTrees : List Tree}
    {certificates : List Certificate} {revocations : Option Tree}
    (hset : IsNode certificateSet (Tag.context 0) certificateTrees) (ht : certificateSet.Encodable depth)
    (hcertificates : List.Forall₂ (fun u c => Certificate.WrittenAs Oid.Fits c u) certificateTrees certificates)
    (hrevocations : ∀ u ∈ revocations, u.element.tag = Tag.context 1) :
    readCertificates ((certificateSet :: revocations.toList).map element) = .ok certificates := by
  have hrest : readCertificates (revocations.toList.map element) = .ok [] := by
    cases revocations with
    | none => rfl
    | some u =>
      have htag := hrevocations u rfl
      have hother : ¬ u.element.tag = Tag.context 0 := by
        rw [htag]
        decide
      simp only [Option.toList, List.map_cons, readCertificates, if_neg hother, if_pos htag]
      rfl
  rw [List.map_cons, readCertificates, if_pos hset.tag_eq, Certificate.ofSet_eq hset ht hcertificates, hrest]
  exact congrArg Except.ok (List.append_nil certificates)

theorem find?_own {before after : List Certificate} {own : Certificate} {issuer serialNumber : Bytes}
    (hissuer : own.issuer = issuer) (hserial : own.serialNumber = serialNumber)
    (hbefore : ∀ c ∈ before, ¬ (c.issuer = issuer ∧ c.serialNumber = serialNumber)) :
    (before ++ own :: after).find? (fun c => c.isIdentifiedBy issuer serialNumber) = some own := by
  have hidentified : ∀ c : Certificate, c.isIdentifiedBy issuer serialNumber = true ↔
      c.issuer = issuer ∧ c.serialNumber = serialNumber := by
    intro c
    rw [Certificate.isIdentifiedBy, Bool.and_eq_true, beq_iff_eq, beq_iff_eq]
  refine List.find?_eq_some_iff_append.mpr ⟨(hidentified own).mpr ⟨hissuer, hserial⟩, before, after, rfl, ?_⟩
  intro c hc
  rw [Bool.not_eq_true', Bool.eq_false_iff, ne_eq, hidentified c]
  exact hbefore c hc

/-! ## A sample -/

/-- An algorithm without parameters. -/
def algorithmTree (o : Oid) : Tree := node Tag.sequence [leaf Tag.objectIdentifier o.encode]

/-- An attribute with a single value. -/
def attributeTree (o : Oid) (value : Tree) : Tree :=
  node Tag.sequence [leaf Tag.objectIdentifier o.encode, node Tag.set [value]]

/-- A name that consists of a common name. -/
def nameTree (text : Bytes) : Tree :=
  node Tag.sequence
    [node Tag.set [node Tag.sequence [leaf Tag.objectIdentifier Oid.commonName.encode, leaf 0x0C text]]]

/-- The beginning of a year of this century. -/
def yearTree (year : Nat) : Tree :=
  leaf Tag.shortTime (Time.digits 2 year ++ (Time.digits 2 1 ++ (Time.digits 2 1 ++ (Time.digits 2 0 ++
    (Time.digits 2 0 ++ (Time.digits 2 0 ++ [90]))))))

/-- The beginning of a year of this century. -/
def yearOf (year : Nat) : Time := ⟨2000 + year, 1, 1, 0, 0, 0, 0⟩

/-- A public key. -/
def keyTree : Tree := node Tag.sequence [algorithmTree .sha256WithRsa, leaf 0x03 [0, 1]]

/-- A certificate, with a serial number that is stated by `serial`. -/
def certificateTree (serial subject : Bytes) : Tree :=
  node Tag.sequence
    [node Tag.sequence [node (Tag.context 0) [leaf Tag.integer [2]], leaf Tag.integer serial,
      algorithmTree .sha256WithRsa, nameTree [67, 65], node Tag.sequence [yearTree 24, yearTree 34],
      nameTree subject, keyTree], algorithmTree .sha256WithRsa, leaf 0x03 [0, 2]]

/-- What is read from a certificate. -/
def certificateOf (serial subject : Bytes) : Certificate where
  raw := (certificateTree serial subject).encode
  serialNumber := Element.dropZeros serial
  issuer := (nameTree [67, 65]).encode
  subject := (nameTree subject).encode
  validity := some (yearOf 24, yearOf 34)
  publicKeyAlgorithm := .sha256WithRsa
  publicKeyInfo := keyTree.encode

/-- A string of three bytes in nested parts. -/
def partsTree : Tree :=
  openNode Tag.octetStringParts [leaf Tag.octetString [1],
    node Tag.octetStringParts [leaf Tag.octetString [2, 3], leaf Tag.octetString []]]

/-- Signed attributes. -/
def attributesTree : Tree :=
  openNode (Tag.context 0) [attributeTree .signingTime (yearTree 24),
    attributeTree .commonName (leaf 0x0C [97]), attributeTree .messageDigest partsTree]

/-- A signer with signed attributes and with others. -/
def signerTree (serial : Bytes) (digestOid : Oid) : Tree :=
  openNode Tag.sequence [leaf Tag.integer [1], node Tag.sequence [nameTree [67, 65], leaf Tag.integer serial],
    algorithmTree digestOid, attributesTree, algorithmTree .sha256WithRsa, leaf Tag.octetString [0xAB],
    node (Tag.context 1) []]

/-- What is read from a signer. -/
def signerOf (serial : Bytes) (digestOid : Oid) : SignerInfo where
  issuer := (nameTree [67, 65]).encode
  serialNumber := Element.dropZeros serial
  digestOid := digestOid
  signedAttributes := some (Tag.set :: attributesTree.encode.tail)
  messageDigest := some [1, 2, 3]
  signingTime := some (yearOf 24)
  signatureAlgorithm := .sha256WithRsa
  signature := [0xAB]
  timestampToken := none

/-- Signed data with two certificates and two signers. The serial numbers of the second certificate and of
the first signer are given, and how the content is written. -/
def signedDataTree (certificateSerial signerSerial : Bytes) (digestOid : Oid) (contentTree : Tree) : Tree :=
  openNode Tag.sequence [leaf Tag.objectIdentifier Oid.signedData.encode, openNode (Tag.context 0)
    [openNode Tag.sequence [leaf Tag.integer [1], node Tag.set [algorithmTree digestOid],
      node Tag.sequence [leaf Tag.objectIdentifier Oid.data.encode, node (Tag.context 0) [contentTree]],
      openNode (Tag.context 0) [certificateTree [7] [88], certificateTree certificateSerial [89]],
      node (Tag.context 1) [], node Tag.set [signerTree signerSerial digestOid, leaf 0x05 []]]]]

/-- What is read from signed data. -/
def signedDataOf (certificateSerial signerSerial : Bytes) (digestOid : Oid) : SignedData where
  digestOids := [digestOid]
  content := some [1, 2, 3]
  certificates := [certificateOf [7] [88], certificateOf certificateSerial [89]]
  signer := signerOf signerSerial digestOid
  signerCertificate := certificateOf certificateSerial [89]

theorem tag_of_mem_some_node (tag : UInt8) (ts : List Tree) : ∀ u ∈ some (node tag ts), u.element.tag = tag := by
  intro u hu
  obtain rfl := Option.mem_some_iff.mp hu
  exact (isNode_node tag ts).tag_eq

theorem isAlgorithm_algorithmTree {o : Oid} (h : P o) : IsAlgorithm P o (algorithmTree o) :=
  ⟨_, [], isNode_node _ _, h, isLeaf_leaf _ _⟩

theorem isAttribute_attributeTree {o : Oid} (h : P o) (value : Tree) :
    IsAttribute P (o, value) (attributeTree o value) :=
  ⟨_, _, [], isNode_node _ _, ⟨h, isLeaf_leaf _ _⟩, isNode_node _ _⟩

theorem isTime_yearTree {year : Nat} (h : year < 50) : IsTime (yearOf year) (yearTree year) := by
  have hfrom : 1950 ≤ (yearOf year).year := Nat.le_add_right_of_le (by decide)
  have hto : (yearOf year).year < 2050 := Nat.add_lt_add_left h 2000
  have hyear : (yearOf year).year % 100 = year := by
    change (2000 + year) % 100 = year
    omega
  have htext := @Time.ShortText.mk (yearOf year) _ _ hfrom hto (.written 0) .universal
  rw [hyear] at htext
  refine ⟨?_, .inl ⟨_, isLeaf_leaf _ _, htext⟩⟩
  simp [Time.IsValid, yearOf, Time.daysInMonth]

theorem isOctets_partsTree : IsOctets [1, 2, 3] partsTree := by
  have hleaf : ∀ bytes, IsOctets bytes (leaf Tag.octetString bytes) := fun bytes => .whole (isLeaf_leaf _ _)
  have hlast : IsOctets [2, 3]
      (node Tag.octetStringParts [leaf Tag.octetString [2, 3], leaf Tag.octetString []]) := by
    refine @IsOctets.parts [([2, 3], leaf Tag.octetString [2, 3]), ([], leaf Tag.octetString [])] _
      (isNode_node _ _) ?_
    simp [hleaf]
  refine @IsOctets.parts [([1], leaf Tag.octetString [1]),
    ([2, 3], node Tag.octetStringParts [leaf Tag.octetString [2, 3], leaf Tag.octetString []])] _
      (isNode_openNode _ _) ?_
  simp [hleaf, hlast]

theorem writtenAs_certificateTree {serial : Bytes} {number : Nat} (subject : Bytes)
    (hserial : Integer.value serial = number) (hpos : 0 < number) (hP : P .sha256WithRsa) :
    (certificateOf serial subject).WrittenAs P (certificateTree serial subject) := by
  have hbody : IsNode (node Tag.sequence [node (Tag.context 0) [leaf Tag.integer [2]], leaf Tag.integer serial,
      algorithmTree .sha256WithRsa, nameTree [67, 65], node Tag.sequence [yearTree 24, yearTree 34],
      nameTree subject, keyTree]) Tag.sequence ((some (node (Tag.context 0) [leaf Tag.integer [2]])).toList ++
        leaf Tag.integer serial :: algorithmTree .sha256WithRsa :: nameTree [67, 65] ::
        node Tag.sequence [yearTree 24, yearTree 34] :: nameTree subject :: keyTree :: []) := isNode_node _ _
  rw [certificateOf, Integer.dropZeros_eq_octets hserial hpos]
  exact .mk (isNode_node _ _) hbody (tag_of_mem_some_node _ _) ⟨_, isLeaf_leaf _ _, hserial⟩ hpos
    (isNode_node _ _).tag_eq (isNode_node _ _).tag_eq (isNode_node _ _) (isTime_yearTree (by decide))
    (isTime_yearTree (by decide)) (isNode_node _ _) (isAlgorithm_algorithmTree hP)

theorem signedAs_attributesTree (hP : ∀ o ∈ [Oid.signingTime, .commonName, .messageDigest], P o) :
    SignedAs P (some attributesTree) (some (Tag.set :: attributesTree.encode.tail)) (some [1, 2, 3])
      (some (yearOf 24)) := by
  have hattributes : List.Forall₂ (fun u a => IsAttribute P a u) [attributeTree .signingTime (yearTree 24),
      attributeTree .commonName (leaf 0x0C [97]), attributeTree .messageDigest partsTree]
      [(.signingTime, yearTree 24), (.commonName, leaf 0x0C [97]), (.messageDigest, partsTree)] :=
    .cons (isAttribute_attributeTree (hP _ (by simp)) _) (.cons (isAttribute_attributeTree (hP _ (by simp)) _)
      (.cons (isAttribute_attributeTree (hP _ (by simp)) _) .nil))
  refine .present (isNode_openNode _ _) hattributes ⟨⟨partsTree, ?_, isOctets_partsTree⟩, yearTree 24, ?_,
    isTime_yearTree (by decide)⟩
  · rfl
  · rfl

theorem writtenAs_signerTree {serial : Bytes} {number : Nat} {digestOid : Oid}
    (hserial : Integer.value serial = number) (hpos : 0 < number)
    (hP : ∀ o ∈ [digestOid, .sha256WithRsa, .signingTime, .commonName, .messageDigest], P o) :
    (signerOf serial digestOid).WrittenAs P (signerTree serial digestOid) := by
  have hfields : IsNode (signerTree serial digestOid) Tag.sequence (leaf Tag.integer [1] ::
      node Tag.sequence [nameTree [67, 65], leaf Tag.integer serial] :: algorithmTree digestOid ::
      ((some attributesTree).toList ++ algorithmTree .sha256WithRsa :: leaf Tag.octetString [0xAB] ::
        (some (node (Tag.context 1) [])).toList)) := isNode_openNode _ _
  rw [signerOf, Integer.dropZeros_eq_octets hserial hpos]
  have hdigest := isAlgorithm_algorithmTree (hP digestOid (by simp))
  have hsignature := isAlgorithm_algorithmTree (hP .sha256WithRsa (by simp))
  have hattributes := signedAs_attributesTree (P := P) fun o ho => hP o (by simp at ho ⊢; tauto)
  exact .mk hfields ⟨_, isLeaf_leaf _ _, by decide⟩ (isNode_node _ _) (isNode_node _ _).tag_eq
    ⟨_, isLeaf_leaf _ _, hserial⟩ hpos hdigest hattributes hsignature (.whole (isLeaf_leaf _ _))
    (tag_of_mem_some_node _ _)

theorem writtenAs_signedDataTree {certificateSerial signerSerial : Bytes} {number : Nat} {digestOid : Oid}
    {contentTree : Tree} (hcertificate : Integer.value certificateSerial = number)
    (hsigner : Integer.value signerSerial = number) (hpos : 0 < number)
    (hother : Element.dropZeros signerSerial ≠ [7]) (hcontent : IsOctets [1, 2, 3] contentTree)
    (hP : ∀ o ∈ [digestOid, .sha256WithRsa, .signedData, .signingTime, .commonName, .messageDigest], P o) :
    (signedDataOf certificateSerial signerSerial digestOid).WrittenAs P
      (signedDataTree certificateSerial signerSerial digestOid contentTree) := by
  have hbody : ∀ digestSet contentInfo certificateSet revocations signers, IsNode (openNode Tag.sequence
      [leaf Tag.integer [1], digestSet, contentInfo, certificateSet, revocations, signers]) Tag.sequence
      (leaf Tag.integer [1] :: digestSet :: contentInfo ::
        (certificateSet :: (some revocations).toList ++ [signers])) := by
    intro digestSet contentInfo certificateSet revocations signers
    exact isNode_openNode _ _
  have hdigest := isAlgorithm_algorithmTree (hP digestOid (by simp))
  have hkey := hP .sha256WithRsa (by simp)
  have hsignerTree := @writtenAs_signerTree P signerSerial number digestOid hsigner hpos
    fun o ho => hP o (by simp at ho ⊢; tauto)
  have hcertificates : List.Forall₂ (fun u c => Certificate.WrittenAs P c u)
      [certificateTree [7] [88], certificateTree certificateSerial [89]]
      ([certificateOf [7] [88]] ++ certificateOf certificateSerial [89] :: []) :=
    .cons (@writtenAs_certificateTree P [7] 7 [88] (by decide) (by decide) hkey)
      (.cons (writtenAs_certificateTree [89] hcertificate hpos hkey) .nil)
  have hsame : Element.dropZeros certificateSerial = Element.dropZeros signerSerial := by
    rw [Integer.dropZeros_eq_octets hcertificate hpos, Integer.dropZeros_eq_octets hsigner hpos]
  have hbefore : ∀ c ∈ [certificateOf [7] [88]], ¬ (c.issuer = (signerOf signerSerial digestOid).issuer ∧
      c.serialNumber = (signerOf signerSerial digestOid).serialNumber) := by
    intro c hc
    obtain rfl := List.mem_singleton.mp hc
    intro h
    exact hother h.2.symm
  exact .mk (isNode_openNode _ _) ⟨hP .signedData (by simp), isLeaf_leaf _ _⟩ (isNode_openNode _ _)
    (hbody _ _ _ _ _) (isNode_node _ _) (.cons hdigest .nil)
    (.present (isNode_node _ _) (isNode_node _ _) hcontent) (isNode_openNode _ _) hcertificates
    (tag_of_mem_some_node _ _) (isNode_node _ _) hsignerTree rfl hsame hbefore

/-- A string in `levels` strings of indefinite length, each directly inside the one before. -/
def nestedTree : Nat → Tree
  | 0 => leaf Tag.octetString [1, 2, 3]
  | levels + 1 => openNode Tag.octetStringParts [nestedTree levels]

/-- A string with a length of five octets. -/
def wideTree : Tree := primitive (identifierOf Tag.octetString) [0x85, 0, 0, 0, 0, 3] [1, 2, 3]

theorem isOctets_nestedTree (levels : Nat) : IsOctets [1, 2, 3] (nestedTree levels) := by
  induction levels with
  | zero => exact .whole (isLeaf_leaf _ _)
  | succ levels ih =>
    refine @IsOctets.parts [([1, 2, 3], nestedTree levels)] _ (isNode_openNode _ _) ?_
    simp [ih]

/-! ## Reading -/

/-- Signed data is read back from its encoding, whatever follows. -/
theorem parse_of_writtenAs {s : SignedData} (h : s.WrittenAs Oid.Fits t) (ht : t.Encodable 0) (rest : Bytes) :
    parse (t.encode ++ rest) = .ok s := by
  obtain @⟨t, kind, wrapper, body, version, digestAlgorithms, contentInfo, certificateSet, signers, signer,
    algorithms, certificateTrees, others, revocations, digestOids, content, before, after, own, info, hnode,
    hkind, hwrapper, hbody, hdigestSet, hdigestOids, hcontent, hset, hcertificates, hrevocations, hsigners,
    hsigner, hissuer, hserial, hbefore⟩ := h
  have hread : Element.parse (t.encode ++ rest) = .ok t.element := by
    rw [Element.parse, Element.read_encode ht]
    rfl
  have hwrapperTree := hnode.encodable ht (List.mem_cons_of_mem _ List.mem_cons_self)
  have hbodyTree := hwrapper.encodable hwrapperTree List.mem_cons_self
  have hfields := fun u (hu : u ∈ _) => hbody.encodable (u := u) hbodyTree hu
  have hsignersTree := hfields signers (by simp)
  have hsignerTree := hsigners.encodable hsignersTree List.mem_cons_self
  have hdigests : forChildren digestAlgorithms.element algorithmOid = .ok digestOids := by
    have hdigestTree := hfields digestAlgorithms (by simp)
    apply forChildren_eq hdigestSet hdigestTree
    have htrees := (List.forall₂_and_left _ _).mpr ⟨fun u hu => hdigestSet.encodable hdigestTree hu, hdigestOids⟩
    exact htrees.imp fun u o h => h.2.algorithmOid_eq h.1
  have hfound := readCertificates_eq hset (hfields certificateSet (by simp)) hcertificates hrevocations
  have hlast : ((certificateSet :: revocations.toList ++ [signers]).map element).getLast? =
      some signers.element := by
    rw [List.map_append, List.map_singleton, List.getLast?_concat]
  have hoptional : ((certificateSet :: revocations.toList ++ [signers]).map element).dropLast =
      (certificateSet :: revocations.toList).map element := by
    rw [List.map_append, List.map_singleton, List.dropLast_concat]
  have hsignedData : ofElement body.element = .ok ⟨digestOids, content, before ++ own :: after, info, own⟩ := by
    rw [ofElement, hbody.sequence_eq hbodyTree]
    simp only [List.map_cons, liftM_ok, Except.ok_bind, expect_eq hdigestSet.tag_eq, hdigests,
      hcontent.readContent_eq (hfields contentInfo (by simp))]
    simp only [hlast, hoptional, hfound, liftM_ok, Except.ok_bind, expect_eq hsigners.tag_eq,
      hsigners.firstChild?_eq hsignersTree, hsigner.ofElement_eq hsignerTree,
      find?_own hissuer hserial hbefore]
    rfl
  rw [parse, hread, liftM_ok, Except.ok_bind, hnode.sequence_eq ht]
  simp only [List.map_cons, liftM_ok, Except.ok_bind, hkind.oid_eq, if_true, hwrapper.explicit_eq hwrapperTree,
    hsignedData]

theorem parse_of_writtenAs_sample :
    let s := signedDataOf [42] [0, 42] .sha256
    let t := signedDataTree [42] [0, 42] .sha256 partsTree
    s.WrittenAs Oid.Fits t ∧ t.Encodable 0 ∧ parse (t.encode ++ [0, 0, 0]) = .ok s := by
  have hwritten := @writtenAs_signedDataTree Oid.Fits [42] [0, 42] 42 .sha256 partsTree (by decide) (by decide)
    (by decide) (by decide) isOctets_partsTree (by decide)
  have hencodable : (signedDataTree [42] [0, 42] .sha256 partsTree).Encodable 0 := by decide +kernel
  exact ⟨hwritten, hencodable, parse_of_writtenAs hwritten hencodable [0, 0, 0]⟩

/-- The numbers that an identifier is encoded as need more than 64 bits although its arcs do not. Strings are
not nested too deeply and their lengths are not longer than can be read either. -/
theorem not_forall_parse_of_writtenAs :
    (¬ ∀ (s : SignedData) (t : Tree) (rest : Bytes), s.WrittenAs Oid.IsRepresentable t → t.Encodable 0 →
      parse (t.encode ++ rest) = .ok s) ∧
    (∀ contentTree ∈ [nestedTree 65, wideTree], (signedDataOf [42] [0, 42] .sha256).WrittenAs Oid.Fits
      (signedDataTree [42] [0, 42] .sha256 contentTree)) ∧
    parse (signedDataTree [42] [0, 42] .sha256 (nestedTree 65)).encode = .error (.encoding .tooDeep) ∧
    parse (signedDataTree [42] [0, 42] .sha256 wideTree).encode = .error (.encoding .invalidLength) := by
  refine ⟨?_, ?_, by decide +kernel, by decide +kernel⟩
  · intro h
    have hwritten := @writtenAs_signedDataTree Oid.IsRepresentable [42] [0, 42] 42 ⟨[2, 18446744073709551615]⟩
      partsTree (by decide) (by decide) (by decide) (by decide) isOctets_partsTree (by decide)
    have hparse := h _ _ [] hwritten (by decide +kernel)
    have herror : parse ((signedDataTree [42] [0, 42] ⟨[2, 18446744073709551615]⟩ partsTree).encode ++ []) =
        .error (.encoding .invalidObjectIdentifier) := by decide +kernel
    rw [herror] at hparse
    cases hparse
  · have hcontent : ∀ contentTree ∈ [nestedTree 65, wideTree], IsOctets [1, 2, 3] contentTree := by
      simp only [List.forall_mem_cons]
      refine ⟨isOctets_nestedTree 65, .whole (.primitive _ _ _), by simp⟩
    intro contentTree hmem
    exact @writtenAs_signedDataTree Oid.Fits [42] [0, 42] 42 .sha256 contentTree (by decide) (by decide)
      (by decide) (by decide) (hcontent contentTree hmem) (by decide)

end Folio.Signature.SignedData
