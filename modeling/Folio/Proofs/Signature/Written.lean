import Folio.Proofs.Asn1.Shape
import Folio.Proofs.Signature.Anatomy

/-!
# Written signatures

Which trees certificates and signers are written as. Identifiers have a property `P`, which says how large
their numbers may be; what is not read from a tree is left open. Main statements:
`Certificate.WrittenAs.ofElement_eq`, `SignerInfo.WrittenAs.ofElement_eq`, each of them is read back from its
element.
-/

namespace Folio.Signature

open Asn1 Tree

variable {P : Oid → Prop} {t u : Tree} {ts : List Tree} {tag : UInt8} {depth : Nat} {o : Oid}

/-! ## Algorithms and attributes -/

/-- Whether a tree is an identifier of an algorithm with any parameters. -/
def IsAlgorithm (P : Oid → Prop) (o : Oid) (t : Tree) : Prop :=
  ∃ kind parameters, IsNode t Tag.sequence (kind :: parameters) ∧ IsOid P o kind

/-- Whether a tree is an attribute of a type with a first value. -/
def IsAttribute (P : Oid → Prop) (a : Oid × Tree) (t : Tree) : Prop :=
  ∃ kind values others, IsNode t Tag.sequence [kind, values] ∧ IsOid P a.1 kind ∧
    IsNode values Tag.set (a.2 :: others)

theorem firstOf_eq (h : IsNode t Tag.sequence (u :: ts)) (ht : t.Encodable depth) (missing : Malformation) :
    Certificate.firstOf t.element missing = .ok u.element := by
  rw [Certificate.firstOf, expect_eq h.tag_eq, liftM_ok, Except.ok_bind, h.firstChild?_eq ht]
  rfl

theorem IsAlgorithm.algorithmOid_eq (h : IsAlgorithm Oid.Fits o t) (ht : t.Encodable depth) :
    algorithmOid t.element = .ok o := by
  obtain ⟨kind, parameters, hnode, hkind⟩ := h
  rw [algorithmOid, firstOf_eq hnode ht, Except.ok_bind, hkind.oid_eq, liftM_ok]

theorem IsAttribute.readAttribute_eq {a : Oid × Tree} (h : IsAttribute Oid.Fits a t)
    (ht : t.Encodable depth) : readAttribute t.element = .ok (a.1, a.2.element) := by
  obtain ⟨kind, values, others, hnode, hkind, hvalues⟩ := h
  have hset := hnode.encodable ht (List.mem_cons_of_mem _ List.mem_cons_self)
  simp only [readAttribute, hnode.sequence_eq ht, List.map_cons, liftM_ok, Except.ok_bind, hkind.oid_eq,
    expect_eq hvalues.tag_eq, hvalues.firstChild?_eq hset]
  rfl

theorem forChildren_eq {α : Type} {f : Element → Except Error α} {values : List α} (h : IsNode t tag ts)
    (ht : t.Encodable depth) (hf : List.Forall₂ (fun u value => f u.element = .ok value) ts values) :
    forChildren t.element f = .ok values := by
  have hvalues : (ts.map element).mapM f = .ok values := by
    apply Except.mapM_eq_ok_of_forall₂
    rwa [List.forall₂_map_left_iff]
  simp only [forChildren, h.children_eq ht, hvalues, Except.ok_bind]
  rfl

/-! ## Signed attributes -/

/-- Whether attributes state a digest and possibly a time. There is one attribute of the first type and at
most one of the second; others may stand anywhere. -/
structure States (digest : Bytes) (time : Option Time) (attributes : List (Oid × Tree)) : Prop where
  digest : ∃ value, attributes.filter (·.1 = .messageDigest) = [(.messageDigest, value)] ∧
    IsOctets digest value
  time : match time with
    | none => attributes.filter (·.1 = .signingTime) = []
    | some time => ∃ value, attributes.filter (·.1 = .signingTime) = [(.signingTime, value)] ∧
        IsTime time value

/-- The last of the digests and the last of the times that attributes state are read. -/
theorem readSignedAttributes_eq {attributes : List (Oid × Element)} {digests : List Bytes} {times : List Time}
    (hdigests : (attributes.filter (·.1 = .messageDigest)).map (·.2.octets) = digests.map .ok)
    (htimes : (attributes.filter (·.1 = .signingTime)).map (·.2.time) = times.map .ok)
    (digest : Option Bytes) (time : Option Time) : readSignedAttributes digest time attributes =
      .ok (digests.getLast?.or digest, times.getLast?.or time) := by
  -- what has been found so far is replaced by what a later attribute states
  induction attributes generalizing digests times digest time with
  | nil =>
    obtain rfl := List.map_eq_nil_iff.mp hdigests.symm
    obtain rfl := List.map_eq_nil_iff.mp htimes.symm
    rfl
  | cons a attributes ih =>
    obtain ⟨kind, value⟩ := a
    by_cases hdigest : kind = .messageDigest
    · have htime : ¬ kind = .signingTime := by
        rw [hdigest]
        decide
      simp only [List.filter_cons, hdigest, decide_true, if_true, List.map_cons] at hdigests
      simp only [List.filter_cons, htime, decide_false, Bool.false_eq_true, if_false] at htimes
      obtain ⟨first, digests, rfl, hfirst, hrest⟩ := List.map_eq_cons_iff.mp hdigests.symm
      rw [readSignedAttributes, if_pos hdigest, ← hfirst, liftM_ok, Except.ok_bind, ih hrest.symm htimes]
      cases digests <;> rfl
    · simp only [List.filter_cons, hdigest, decide_false, Bool.false_eq_true, if_false] at hdigests
      by_cases htime : kind = .signingTime
      · simp only [List.filter_cons, htime, decide_true, if_true, List.map_cons] at htimes
        obtain ⟨first, times, rfl, hfirst, hrest⟩ := List.map_eq_cons_iff.mp htimes.symm
        rw [readSignedAttributes, if_neg hdigest, if_pos htime, ← hfirst, ih hdigests hrest.symm]
        cases times <;> rfl
      · simp only [List.filter_cons, htime, decide_false, Bool.false_eq_true, if_false] at htimes
        rw [readSignedAttributes, if_neg hdigest, if_neg htime, ih hdigests htimes]

/-- What attributes state is read from their first values. -/
theorem States.readSignedAttributes_eq {digest : Bytes} {time : Option Time} {attributes : List (Oid × Tree)}
    (h : States digest time attributes) (ht : ∀ a ∈ attributes, a.2.Encodable 0) :
    readSignedAttributes none none (attributes.map fun a => (a.1, a.2.element)) = .ok (some digest, time) := by
  obtain ⟨⟨value, hdigest, hvalue⟩, htime⟩ := h
  have hfilter : ∀ o : Oid, (attributes.map fun a => (a.1, a.2.element)).filter (·.1 = o) =
      (attributes.filter (·.1 = o)).map fun a => (a.1, a.2.element) := fun o => List.filter_map
  have hmem : (Oid.messageDigest, value) ∈ attributes := by
    apply List.mem_of_mem_filter (p := fun a => a.1 = .messageDigest)
    rw [hdigest]
    exact List.mem_cons_self
  have hdigests : ((attributes.map fun a => (a.1, a.2.element)).filter (·.1 = .messageDigest)).map
      (·.2.octets) = [digest].map .ok := by
    rw [hfilter, hdigest]
    exact congrArg (fun r => [r]) (hvalue.octets_eq (ht _ hmem))
  have htimes : ((attributes.map fun a => (a.1, a.2.element)).filter (·.1 = .signingTime)).map (·.2.time) =
      time.toList.map .ok := by
    rw [hfilter]
    cases time with
    | none =>
      rw [htime]
      rfl
    | some time =>
      obtain ⟨moment, htime, hmoment⟩ := htime
      rw [htime]
      exact congrArg (fun r => [r]) hmoment.time_eq
  rw [Signature.readSignedAttributes_eq hdigests htimes]
  cases time <;> rfl

/-- Which optional element holds signed attributes, with their encoding as a set and what they state. -/
inductive SignedAs (P : Oid → Prop) : Option Tree → Option Bytes → Option Bytes → Option Time → Prop
  | absent : SignedAs P none none none none
  | present {t : Tree} {ts : List Tree} {attributes : List (Oid × Tree)} {digest : Bytes}
    {time : Option Time} : IsNode t (Tag.context 0) ts → List.Forall₂ (fun u a => IsAttribute P a u) ts attributes →
    States digest time attributes →
    SignedAs P (some t) (some (Tag.set :: t.encode.tail)) (some digest) time

theorem IsAttribute.encodable {a : Oid × Tree} (h : IsAttribute P a t) (ht : t.Encodable depth) :
    a.2.Encodable 0 := by
  obtain ⟨kind, values, others, hnode, -, hvalues⟩ := h
  have hset := hnode.encodable ht (List.mem_cons_of_mem _ List.mem_cons_self)
  exact hvalues.encodable hset List.mem_cons_self

theorem SignedAs.readSigned_eq {signed : Option Tree} {raw digest : Option Bytes} {time : Option Time}
    (h : SignedAs Oid.Fits signed raw digest time) (ht : ∀ t ∈ signed, t.Encodable 0) :
    SignerInfo.readSigned (signed.map element) = .ok (digest, time) ∧
      (signed.map element).map (fun e => retagAsSet e.raw) = raw := by
  cases h with
  | absent => exact ⟨rfl, rfl⟩
  | @present t ts attributes digest time hnode hattributes hstates =>
    have htree := ht t rfl
    have hchildren : List.Forall₂ (fun u a => u.Encodable 0 ∧ IsAttribute Oid.Fits a u) ts attributes :=
      (List.forall₂_and_left _ _).mpr ⟨fun u hu => hnode.encodable htree hu, hattributes⟩
    have hread : readAttributes t.element = .ok (attributes.map fun a => (a.1, a.2.element)) := by
      apply forChildren_eq hnode htree
      rw [List.forall₂_map_right_iff]
      exact hchildren.imp fun u a h => h.2.readAttribute_eq h.1
    have hvalues : ∀ a ∈ attributes, a.2.Encodable 0 := by
      have hpairs := hchildren.flip.imp fun a u h => And.intro (h.2.encodable h.1) h
      exact ((List.forall₂_and_left _ _).mp hpairs).1
    simp only [SignerInfo.readSigned, Option.map_some, hread, Except.ok_bind,
      hstates.readSignedAttributes_eq hvalues]
    exact ⟨rfl, congrArg some (congrArg (Tag.set :: ·) List.drop_one)⟩

/-! ## Certificates -/

/-- Which tree a certificate is written as. -/
inductive Certificate.WrittenAs (P : Oid → Prop) : Certificate → Tree → Prop
  | mk {t body serial signature issuer validity first last subject keyInfo keyAlgorithm : Tree}
    {version : Option Tree} {extensions others key : List Tree} {number : Nat} {start stop : Time} {o : Oid} :
    -- the signed part comes first, and its version may be left out
    IsNode t Tag.sequence (body :: others) →
    IsNode body Tag.sequence (version.toList ++
      serial :: signature :: issuer :: validity :: subject :: keyInfo :: extensions) →
    (∀ v ∈ version, v.element.tag = Tag.context 0) → IsInteger number serial → 0 < number →
    -- of the names only the encoding is read
    issuer.element.tag = Tag.sequence → subject.element.tag = Tag.sequence →
    IsNode validity Tag.sequence [first, last] → IsTime start first → IsTime stop last →
    IsNode keyInfo Tag.sequence (keyAlgorithm :: key) → IsAlgorithm P o keyAlgorithm →
    WrittenAs P ⟨t.encode, Integer.octets number, issuer.encode, subject.encode, some (start, stop), o,
      keyInfo.encode⟩ t

theorem withoutVersion_eq {version : Option Tree} {serial : Tree} {number : Nat}
    (hversion : ∀ v ∈ version, v.element.tag = Tag.context 0) (hserial : IsInteger number serial) :
    Certificate.withoutVersion ((version.toList ++ serial :: ts).map element) =
      serial.element :: ts.map element := by
  obtain ⟨contents, hleaf, -⟩ := hserial
  cases version with
  | none =>
    have htag : ¬ serial.element.tag = Tag.context 0 := by
      rw [hleaf.tag_eq]
      decide
    exact if_neg htag
  | some v => exact if_pos (hversion v rfl)

theorem Certificate.WrittenAs.ofElement_eq {c : Certificate} (h : c.WrittenAs Oid.Fits t)
    (ht : t.Encodable depth) : Certificate.ofElement t.element = .ok c := by
  obtain @⟨t, body, serial, signature, issuer, validity, first, last, subject, keyInfo, keyAlgorithm, version,
    extensions, others, key, number, start, stop, o, hnode, hbody, hversion, hserial, hpos, hissuer, hsubject,
    hvalidity, hstart, hstop, hkeyInfo, hkeyAlgorithm⟩ := h
  have hbodyTree := hnode.encodable ht List.mem_cons_self
  have hvalidityTree : validity.Encodable 0 := hbody.encodable hbodyTree (by simp)
  have hkeyInfoTree : keyInfo.Encodable 0 := hbody.encodable hbodyTree (by simp)
  have hkeyTree := hkeyInfo.encodable hkeyInfoTree List.mem_cons_self
  have hread : Certificate.readValidity validity.element = .ok (start, stop) := by
    simp only [Certificate.readValidity, hvalidity.sequence_eq hvalidityTree, List.map_cons, List.map_nil,
      liftM_ok, Except.ok_bind, hstart.time_eq, hstop.time_eq]
    rfl
  obtain ⟨kind, parameters, hkeyNode, hkind⟩ := hkeyAlgorithm
  have hsplit := @withoutVersion_eq (signature :: issuer :: validity :: subject :: keyInfo :: extensions)
    version serial number hversion hserial
  exact Certificate.ofElement_eq_ok.mpr ⟨_, _, _, _, _, _, _, _, _, _, _, _, hnode.sequence_eq ht,
    hbody.sequence_eq hbodyTree, hsplit, hkeyInfo.tag_eq, firstOf_eq hkeyInfo hkeyInfoTree _,
    firstOf_eq hkeyNode hkeyTree _, hkind.oid_eq, hserial.integer_eq hpos, hissuer, hsubject, rfl, rfl, rfl,
    (congrArg Except.toOption hread).symm, rfl⟩

theorem Certificate.WrittenAs.tag_eq {c : Certificate} (h : c.WrittenAs P t) : t.element.tag = Tag.sequence := by
  cases h with
  | mk hnode => exact hnode.tag_eq

theorem Certificate.ofSet_eq {certificates : List Certificate} (h : IsNode t tag ts) (ht : t.Encodable depth)
    (hcertificates : List.Forall₂ (fun u c => Certificate.WrittenAs Oid.Fits c u) ts certificates) :
    Certificate.ofSet t.element = certificates := by
  have hchildren : List.Forall₂ (fun u c => u.Encodable 0 ∧ Certificate.WrittenAs Oid.Fits c u) ts
      certificates := (List.forall₂_and_left _ _).mpr ⟨fun u hu => h.encodable ht hu, hcertificates⟩
  rw [Certificate.ofSet, h.children_eq ht]
  dsimp only
  clear h ht hcertificates
  induction hchildren with
  | nil => rfl
  | @cons u c ts certificates hc _ ih =>
    have htag : (u.element.tag == Tag.sequence) = true := beq_iff_eq.mpr hc.2.tag_eq
    rw [List.map_cons, List.filter_cons, if_pos htag, List.filterMap_cons, hc.2.ofElement_eq hc.1, ih]
    rfl

/-! ## Signers -/

/-- Which tree a signer is written as. A timestamp is looked for among attributes that are not signed. -/
inductive SignerInfo.WrittenAs (P : Oid → Prop) : SignerInfo → Tree → Prop
  | mk {t version id issuer serial digestAlgorithm signatureAlgorithm signature : Tree}
    {signed unsigned : Option Tree} {number : Nat} {digestOid signatureOid : Oid}
    {attributes digest : Option Bytes} {time : Option Time} {value : Bytes} :
    IsNode t Tag.sequence (version :: id :: digestAlgorithm :: (signed.toList ++
      signatureAlgorithm :: signature :: unsigned.toList)) →
    IsInteger 1 version → IsNode id Tag.sequence [issuer, serial] → issuer.element.tag = Tag.sequence →
    IsInteger number serial → 0 < number → IsAlgorithm P digestOid digestAlgorithm →
    SignedAs P signed attributes digest time → IsAlgorithm P signatureOid signatureAlgorithm →
    IsOctets value signature → (∀ u ∈ unsigned, u.element.tag = Tag.context 1) →
    WrittenAs P ⟨issuer.encode, Integer.octets number, digestOid, attributes, digest, time, signatureOid,
      value, unsigned.bind fun u => findTimestamp u.element⟩ t

theorem splitSigned_eq {signed : Option Tree} {algorithm : Tree} {raw digest : Option Bytes}
    {time : Option Time} (hsigned : SignedAs P signed raw digest time) (halgorithm : IsAlgorithm P o algorithm) :
    SignerInfo.splitSigned ((signed.toList ++ algorithm :: ts).map element) =
      (signed.map element, (algorithm :: ts).map element) := by
  obtain ⟨kind, parameters, halgorithm, -⟩ := halgorithm
  cases hsigned with
  | absent =>
    have htag : ¬ algorithm.element.tag = Tag.context 0 := by
      rw [halgorithm.tag_eq]
      decide
    exact if_neg htag
  | present hnode => exact if_pos hnode.tag_eq

theorem SignerInfo.WrittenAs.ofElement_eq {s : SignerInfo} (h : s.WrittenAs Oid.Fits t)
    (ht : t.Encodable depth) : SignerInfo.ofElement t.element = .ok s := by
  obtain @⟨t, version, id, issuer, serial, digestAlgorithm, signatureAlgorithm, signature, signed, unsigned,
    number, digestOid, signatureOid, attributes, digest, time, value, hnode, hversion, hid, hissuer, hserial,
    hpos, hdigestAlgorithm, hsigned, hsignatureAlgorithm, hvalue, hunsigned⟩ := h
  have hfields := fun u (hu : u ∈ _) => hnode.encodable (u := u) ht hu
  have hidentifier : SignerInfo.readIdentifier 1 id.element = .ok (issuer.encode, Integer.octets number) := by
    simp only [SignerInfo.readIdentifier, if_true, hid.sequence_eq (hfields id (by simp)), List.map_cons,
      liftM_ok, Except.ok_bind, expect_eq hissuer, hserial.integer_eq hpos]
    rfl
  have hdigest := hdigestAlgorithm.algorithmOid_eq (hfields _ (by simp))
  have hsignature := hsignatureAlgorithm.algorithmOid_eq (hfields _ (by simp))
  have hsplit := @splitSigned_eq _ (signature :: unsigned.toList) _ _ _ _ _ _ hsigned hsignatureAlgorithm
  obtain ⟨hread, hraw⟩ := hsigned.readSigned_eq fun u hu => hfields u (by simp [Option.mem_def.mp hu])
  have htoken : unsigned.bind (fun u => findTimestamp u.element) =
      ((unsigned.toList.map element).head?.filter fun e => e.tag == Tag.context 1).bind findTimestamp := by
    cases unsigned with
    | none => rfl
    | some u =>
      have htag : (u.element.tag == Tag.context 1) = true := beq_iff_eq.mpr (hunsigned u rfl)
      simp [Option.filter, htag]
  exact SignerInfo.ofElement_eq_ok.mpr ⟨_, _, _, _, _, _, _, _, 1, hnode.sequence_eq ht, hsplit,
    hversion.smallInteger_eq Nat.one_pos (by decide), hidentifier, hdigest, hsignature,
    hvalue.octets_eq (hfields signature (by simp)), hread, hraw.symm, htoken⟩

end Folio.Signature
