import Folio.Proofs.Asn1.Extent
import Folio.Proofs.Asn1.Integer
import Folio.Signature.Validation

/-!
# Where signed data states what is read from it

The elements of some data that name the signer's certificate and that hold the signed attributes, and what
a successful reading says about them. Main statements: `SignerInfo.ofElement_eq_ok`, `SignedData.parse_eq_ok`
and `Certificate.parse_raw_of_mem`, the certificates are read again from their own encodings.
-/

namespace Folio.Signature

open Asn1

variable {data raw : Bytes} {e set : Element}

/-! ## Elements read as part of a signature -/

theorem liftM_eq_ok {α : Type} {x : Except Asn1.Error α} {a : α} :
    (liftM x : Except Error α) = .ok a ↔ x = .ok a := by
  cases x with
  | error => exact ⟨nofun, nofun⟩
  | ok b =>
    change (.ok b : Except Error α) = .ok a ↔ _
    rw [Except.ok.injEq, Except.ok.injEq]

theorem liftM_ok {α : Type} (a : α) : (liftM (.ok a : Except Asn1.Error α) : Except Error α) = .ok a := rfl

theorem parse_raw_of_mem_readAll {fuel : Nat} (h : e ∈ (Element.readAll fuel data).1) :
    Element.parse e.raw = .ok e := by
  induction fuel generalizing data with
  | zero => cases h
  | succ fuel ih =>
    rw [Element.readAll] at h
    split at h
    · cases h
    · cases hread : Element.read data with
      | error => rw [hread] at h; cases h
      | ok read =>
        obtain ⟨first, rest⟩ := read
        rw [hread] at h
        rcases List.mem_cons.mp h with rfl | h
        · have hpart := (Element.consumes_raw hread).2.parse_append []
          rwa [List.append_nil] at hpart
        · exact ih h

/-! ## Certificates -/

namespace Certificate

variable {c : Certificate}

/-- The fields of a certificate after its version. -/
def withoutVersion : List Element → List Element
  | version :: rest => if version.tag = Tag.context 0 then rest else version :: rest
  | [] => []

/-- The elements of a certificate that are the name of its issuer and its serial number. -/
def identifier? (raw : Bytes) : Option (Element × Element) := do
  let e ← (Element.parse raw).toOption
  let body ← (← e.sequence.toOption).head?
  match withoutVersion (← body.sequence.toOption) with
  | serial :: _ :: issuer :: _ => some (issuer, serial)
  | _ => none

theorem ofElement_eq_ok : ofElement e = .ok c ↔
    ∃ body others fields serial algorithm issuer validity subject keyInfo rest keyAlgorithm kind,
      e.sequence = .ok (body :: others) ∧ body.sequence = .ok fields ∧
      withoutVersion fields = serial :: algorithm :: issuer :: validity :: subject :: keyInfo :: rest ∧
      keyInfo.tag = Tag.sequence ∧ firstOf keyInfo .publicKeyAlgorithm = .ok keyAlgorithm ∧
      firstOf keyAlgorithm .publicKeyAlgorithm = .ok kind ∧ kind.oid = .ok c.publicKeyAlgorithm ∧
      serial.integer = .ok c.serialNumber ∧ issuer.tag = Tag.sequence ∧ subject.tag = Tag.sequence ∧
      c.raw = e.raw ∧ c.issuer = issuer.raw ∧ c.subject = subject.raw ∧
      c.validity = (readValidity validity).toOption ∧ c.publicKeyInfo = keyInfo.raw := by
  constructor
  · intro h
    rw [ofElement] at h
    obtain ⟨parts, hparts, h⟩ := Except.bind_eq_ok.mp h
    split at h
    · cases h
    · rename_i body others
      obtain ⟨fields, hfields, h⟩ := Except.bind_eq_ok.mp h
      dsimp only at h
      split at h
      · rename_i serial algorithm issuer validity subject keyInfo rest hsplit
        simp only [Except.bind_eq_ok, liftM_eq_ok, Except.pure_eq_ok, Element.expect_eq_ok] at h
        obtain ⟨_, ⟨hkeyInfo, rfl⟩, keyAlgorithm, hkeyAlgorithm, kind, hkind, _, hoid, _, hserial, _,
          ⟨hissuer, rfl⟩, _, ⟨hsubject, rfl⟩, rfl⟩ := h
        exact ⟨body, others, fields, serial, algorithm, issuer, validity, subject, keyInfo, rest, keyAlgorithm,
          kind, liftM_eq_ok.mp hparts, liftM_eq_ok.mp hfields, hsplit, hkeyInfo, hkeyAlgorithm, hkind, hoid,
          hserial, hissuer, hsubject, rfl, rfl, rfl, rfl, rfl⟩
      · cases h
  · rintro ⟨body, others, fields, serial, algorithm, issuer, validity, subject, keyInfo, rest, keyAlgorithm, kind,
      hparts, hfields, hsplit, hkeyInfo, hkeyAlgorithm, hkind, hoid, hserial, hissuer, hsubject, hraw, hname, hown,
      hvalidity, hinfo⟩
    obtain ⟨raw, serialNumber, name, own, valid, oid, info⟩ := c
    subst hraw hname hown hvalidity hinfo
    rw [ofElement, hparts, liftM_ok, Except.ok_bind]
    simp only [hfields, liftM_ok, Except.ok_bind]
    have hexpect : ∀ {e : Element}, e.tag = Tag.sequence → e.expect Tag.sequence = .ok e :=
      fun h => Element.expect_eq_ok.mpr ⟨h, rfl⟩
    cases fields with
    | nil => cases hsplit
    | cons version fields =>
      -- for a first field, `ofElement` makes the choice that is written out by `withoutVersion`
      rw [withoutVersion] at hsplit
      simp only [hsplit, hexpect hkeyInfo, hkeyAlgorithm, hkind, hoid, hserial, hexpect hissuer,
        hexpect hsubject, liftM_ok, Except.ok_bind]
      rfl

theorem identifier?_of_ofElement (hparse : Element.parse raw = .ok e) (h : ofElement e = .ok c) :
    ∃ issuer serial, identifier? raw = some (issuer, serial) ∧ c.issuer = issuer.raw ∧
      serial.integer = .ok c.serialNumber := by
  obtain ⟨body, others, fields, serial, algorithm, issuer, validity, subject, keyInfo, rest, -, -, hparts, hfields,
    hsplit, -, -, -, -, hserial, -, -, -, hissuer, -⟩ := ofElement_eq_ok.mp h
  refine ⟨issuer, serial, ?_, hissuer, hserial⟩
  simp only [identifier?, hparse, hparts, hfields, Except.toOption, Option.bind_eq_bind, Option.bind_some,
    List.head?_cons, hsplit]

/-- A certificate in a set is read again from its own encoding. -/
theorem parse_raw_of_mem (h : c ∈ ofSet set) : parse c.raw = .ok c := by
  obtain ⟨e, hmem, hcertificate⟩ := List.mem_filterMap.mp h
  have hparse := parse_raw_of_mem_readAll (List.mem_of_mem_filter hmem)
  cases hread : ofElement e with
  | error => rw [hread] at hcertificate; cases hcertificate
  | ok found =>
    rw [hread] at hcertificate
    cases hcertificate
    obtain ⟨_, _, _, _, _, _, _, _, _, _, _, _, -, -, -, -, -, -, -, -, -, -, hraw, -⟩ :=
      ofElement_eq_ok.mp hread
    rw [hraw, parse]
    exact Except.bind_eq_ok.mpr ⟨e, liftM_eq_ok.mpr hparse, hread⟩

end Certificate

/-! ## Signers -/

namespace SignerInfo

variable {s : SignerInfo}

/-- The signed attributes, if they come next, and the fields after them. -/
def splitSigned : List Element → Option Element × List Element
  | first :: rest => if first.tag = Tag.context 0 then (some first, rest) else (none, first :: rest)
  | [] => (none, [])

theorem readIdentifier_eq_ok {version : Nat} {id : Element} {issuer serialNumber : Bytes}
    (h : readIdentifier version id = .ok (issuer, serialNumber)) : ∃ name serial others,
      id.sequence = .ok (name :: serial :: others) ∧ issuer = name.raw ∧
        serial.integer = .ok serialNumber := by
  rw [readIdentifier] at h
  split at h
  · obtain ⟨parts, hparts, h⟩ := Except.bind_eq_ok.mp h
    split at h
    · rename_i name serial others
      simp only [Except.bind_eq_ok, liftM_eq_ok, Except.pure_eq_ok, Element.expect_eq_ok,
        Prod.mk.injEq] at h
      obtain ⟨_, ⟨-, rfl⟩, _, hserial, rfl, rfl⟩ := h
      exact ⟨name, serial, others, liftM_eq_ok.mp hparts, rfl, hserial⟩
    · cases h
  · split at h <;> cases h

/-- Where there are signed attributes, one of them is the digest. -/
theorem readSigned_some {signed : Element} {digest : Option Bytes} {time : Option Time}
    (h : readSigned (some signed) = .ok (digest, time)) : digest.isSome = true := by
  simp only [readSigned, Except.bind_eq_ok] at h
  obtain ⟨attributes, -, ⟨found, moment⟩, -, h⟩ := h
  cases found with
  | none => cases h
  | some found =>
    cases h
    rfl

theorem ofElement_eq_ok : ofElement e = .ok s ↔
    ∃ version id digestAlgorithm rest signed algorithm signature others n,
      e.sequence = .ok (version :: id :: digestAlgorithm :: rest) ∧
      splitSigned rest = (signed, algorithm :: signature :: others) ∧
      version.smallInteger = .ok n ∧ readIdentifier n id = .ok (s.issuer, s.serialNumber) ∧
      algorithmOid digestAlgorithm = .ok s.digestOid ∧ algorithmOid algorithm = .ok s.signatureAlgorithm ∧
      signature.octets = .ok s.signature ∧ readSigned signed = .ok (s.messageDigest, s.signingTime) ∧
      s.signedAttributes = signed.map (fun e => retagAsSet e.raw) ∧
      s.timestampToken = (others.head?.filter fun e => e.tag == Tag.context 1).bind findTimestamp := by
  constructor
  · intro h
    rw [ofElement] at h
    obtain ⟨fields, hfields, h⟩ := Except.bind_eq_ok.mp h
    split at h
    · rename_i version id digestAlgorithm rest
      simp only [Except.bind_eq_ok, liftM_eq_ok] at h
      obtain ⟨n, hn, ⟨issuer, serialNumber⟩, hidentifier, _, hdigest, h⟩ := h
      split at h
      · rename_i algorithm signature others hsplit
        simp only [Except.bind_eq_ok, liftM_eq_ok] at h
        obtain ⟨_, halgorithm, _, hsignature, ⟨digest, time⟩, hsigned, h⟩ := h
        cases h
        exact ⟨version, id, digestAlgorithm, rest, _, algorithm, signature, others, n, liftM_eq_ok.mp hfields,
          Prod.ext rfl hsplit, hn, hidentifier, hdigest, halgorithm, hsignature, hsigned, rfl, rfl⟩
      · cases h
    · cases h
  · rintro ⟨version, id, digestAlgorithm, rest, signed, algorithm, signature, others, n, hfields, hsplit, hn,
      hidentifier, hdigest, halgorithm, hsignature, hsigned, hattributes, htoken⟩
    obtain ⟨issuer, serialNumber, digestOid, attributes, digest, time, signatureAlgorithm, value, token⟩ := s
    subst hattributes htoken
    rw [ofElement, hfields, liftM_ok, Except.ok_bind]
    simp only [hn, hidentifier, hdigest, liftM_ok, Except.ok_bind]
    cases rest with
    | nil => cases hsplit
    | cons first rest =>
      -- as above, with the choice of `splitSigned`
      rw [splitSigned] at hsplit
      simp only [hsplit, halgorithm, hsignature, hsigned, liftM_ok, Except.ok_bind]
      rfl

end SignerInfo

/-! ## Signed data -/

namespace SignedData

variable {s : SignedData}

/-- The fields of the first signer in some data. -/
def signerFields? (data : Bytes) : Option (List Element) := do
  let info ← (Element.parse data).toOption
  let content ← (← info.sequence.toOption)[1]?
  let content ← (content.explicit 0).toOption
  let signers ← (← content.sequence.toOption).getLast?
  let signer ← (← signers.firstChild?).toOption
  signer.sequence.toOption

/-- The elements of some data that name the issuer and the serial number of the signer's certificate. -/
def signerIdentifier? (data : Bytes) : Option (Element × Element) := do
  let id ← (← signerFields? data)[1]?
  match ← id.sequence.toOption with
  | issuer :: serial :: _ => some (issuer, serial)
  | _ => none

/-- The signed attributes of the first signer in some data. -/
def signedAttributes? (data : Bytes) : Option Element := do
  let attributes ← (← signerFields? data)[3]?
  if attributes.tag = Tag.context 0 then some attributes else none

theorem mem_readCertificates {elements : List Element} {certificates : List Certificate} {c : Certificate}
    (h : readCertificates elements = .ok certificates) (hc : c ∈ certificates) :
    ∃ set, c ∈ Certificate.ofSet set := by
  induction elements generalizing certificates with
  | nil =>
    cases h
    cases hc
  | cons e elements ih =>
    rw [readCertificates] at h
    split at h
    · simp only [Except.bind_eq_ok, Except.pure_eq_ok] at h
      obtain ⟨_, rfl, others, hothers, rfl⟩ := h
      rcases List.mem_append.mp hc with hc | hc
      · exact ⟨e, hc⟩
      · exact ih hothers hc
    · split at h
      · simp only [Except.bind_eq_ok, Except.pure_eq_ok] at h
        obtain ⟨_, rfl, others, hothers, rfl⟩ := h
        exact ih hothers hc
      · cases h

/-- Whether fields before the signers are those of signed data. -/
inductive HasFields (s : SignedData) : List Element → Prop
  | mk {version digestAlgorithms content : Element} {optional : List Element} :
    digestAlgorithms.tag = Tag.set → forChildren digestAlgorithms algorithmOid = .ok s.digestOids →
    readContent content = .ok s.content → readCertificates optional = .ok s.certificates →
    s.certificates.find? (fun c => c.isIdentifiedBy s.signer.issuer s.signer.serialNumber) =
      some s.signerCertificate → HasFields s (version :: digestAlgorithms :: content :: optional)

theorem ofElement_eq_ok_iff : ofElement e = .ok s ↔ ∃ fields signers signer,
    e.sequence = .ok (fields ++ [signers]) ∧ s.HasFields fields ∧ signers.tag = Tag.set ∧
      signers.firstChild? = some (.ok signer) ∧ SignerInfo.ofElement signer = .ok s.signer := by
  constructor
  · intro h
    rw [ofElement] at h
    obtain ⟨parts, hparts, h⟩ := Except.bind_eq_ok.mp h
    split at h
    · rename_i version digestAlgorithms content rest
      simp only [Except.bind_eq_ok, liftM_eq_ok, Element.expect_eq_ok] at h
      obtain ⟨_, ⟨hset, rfl⟩, digestOids, hdigests, found, hcontent, h⟩ := h
      split at h
      · cases h
      rename_i signers hlast
      obtain ⟨optional, rfl⟩ := List.getLast?_eq_some_iff.mp hlast
      simp only [Except.bind_eq_ok, liftM_eq_ok, Element.expect_eq_ok, List.dropLast_concat] at h
      obtain ⟨certificates, hcertificates, _, ⟨hsigners, rfl⟩, h⟩ := h
      split at h
      · cases h
      rename_i first hfirst
      simp only [Except.bind_eq_ok, liftM_eq_ok] at h
      obtain ⟨signer, rfl, info, hinfo, h⟩ := h
      split at h
      · cases h
      rename_i own hown
      cases h
      exact ⟨version :: digestAlgorithms :: content :: optional, signers, signer, liftM_eq_ok.mp hparts,
        .mk hset hdigests hcontent hcertificates hown, hsigners, hfirst, hinfo⟩
    · cases h
  · rintro ⟨fields, signers, signer, hparts, ⟨hset, hdigests, hcontent, hcertificates, hown⟩, hsigners, hfirst,
      hsigner⟩
    obtain ⟨digestOids, content, certificates, info, own⟩ := s
    have hexpect : ∀ {e : Element} {tag : UInt8}, e.tag = tag → e.expect tag = .ok e :=
      fun h => Element.expect_eq_ok.mpr ⟨h, rfl⟩
    rw [ofElement, hparts]
    simp only [List.cons_append, hexpect hset, hexpect hsigners, hdigests, hcontent, hcertificates, hfirst, hsigner,
      hown, liftM_ok, Except.ok_bind, List.getLast?_concat, List.dropLast_concat]
    rfl

theorem ofElement_eq_ok (h : ofElement e = .ok s) : ∃ fields signers signer,
    e.sequence = .ok fields ∧ fields.getLast? = some signers ∧ signers.firstChild? = some (.ok signer) ∧
      SignerInfo.ofElement signer = .ok s.signer ∧
      Certificate.parse s.signerCertificate.raw = .ok s.signerCertificate ∧
      s.signerCertificate.issuer = s.signer.issuer ∧
      s.signerCertificate.serialNumber = s.signer.serialNumber := by
  obtain ⟨fields, signers, signer, hfields, ⟨-, -, -, hcertificates, hown⟩, -, hfirst, hsigner⟩ :=
    ofElement_eq_ok_iff.mp h
  obtain ⟨set, hset⟩ := mem_readCertificates hcertificates (List.mem_of_find?_eq_some hown)
  have hmatch := List.find?_some hown
  rw [Certificate.isIdentifiedBy, Bool.and_eq_true, beq_iff_eq, beq_iff_eq] at hmatch
  exact ⟨_, signers, signer, hfields, List.getLast?_concat, hfirst, hsigner, Certificate.parse_raw_of_mem hset,
    hmatch.1, hmatch.2⟩

theorem parse_eq_ok_iff : parse data = .ok s ↔ ∃ info kind wrapper others body,
    Element.parse data = .ok info ∧ info.sequence = .ok (kind :: wrapper :: others) ∧
      kind.oid = .ok .signedData ∧ wrapper.explicit 0 = .ok body ∧ ofElement body = .ok s := by
  constructor
  · intro h
    rw [parse] at h
    obtain ⟨info, hinfo, h⟩ := Except.bind_eq_ok.mp h
    obtain ⟨parts, hparts, h⟩ := Except.bind_eq_ok.mp h
    split at h
    · rename_i kind wrapper others
      obtain ⟨oid, hoid, h⟩ := Except.bind_eq_ok.mp h
      split at h
      · rename_i hsigned
        obtain ⟨body, hwrapper, hbody⟩ := Except.bind_eq_ok.mp h
        rw [liftM_eq_ok] at hinfo hparts hoid hwrapper
        exact ⟨info, kind, wrapper, others, body, hinfo, hparts, hsigned ▸ hoid, hwrapper, hbody⟩
      · split at h <;> cases h
    · cases h
  · rintro ⟨info, kind, wrapper, others, body, hinfo, hparts, hkind, hwrapper, hbody⟩
    rw [parse, hinfo, liftM_ok, Except.ok_bind, hparts, liftM_ok, Except.ok_bind]
    simp only [hkind, hwrapper, liftM_ok, Except.ok_bind, if_true, hbody]

theorem parse_eq_ok (h : parse data = .ok s) : ∃ signer, signerFields? data = signer.sequence.toOption ∧
    SignerInfo.ofElement signer = .ok s.signer ∧
    Certificate.parse s.signerCertificate.raw = .ok s.signerCertificate ∧
    s.signerCertificate.issuer = s.signer.issuer ∧
    s.signerCertificate.serialNumber = s.signer.serialNumber := by
  obtain ⟨info, kind, wrapper, others, body, hinfo, hparts, -, hwrapper, hbody⟩ := parse_eq_ok_iff.mp h
  obtain ⟨fields, signers, signer, hfields, hlast, hfirst, hsigner⟩ := ofElement_eq_ok hbody
  refine ⟨signer, ?_, hsigner⟩
  simp only [signerFields?, hinfo, hparts, hwrapper, hfields, hlast, hfirst, Except.toOption, Option.bind_eq_bind,
    Option.bind_some, List.getElem?_cons_succ, List.getElem?_cons_zero]

/-- The signed attributes that are read are those of the first signer, and one of them is the digest. -/
theorem signedAttributes_eq (h : parse data = .ok s) :
    s.signer.signedAttributes = (signedAttributes? data).map (fun e => retagAsSet e.raw) ∧
      ((signedAttributes? data).isSome = true → s.signer.messageDigest.isSome = true) := by
  obtain ⟨signer, hfields, hsigner, -⟩ := parse_eq_ok h
  obtain ⟨version, id, digestAlgorithm, rest, signed, algorithm, signature, others, n, hsequence, hsplit, -, -, -, -,
    -, hsigned, hattributes, -⟩ := SignerInfo.ofElement_eq_ok.mp hsigner
  have hfound : signedAttributes? data = signed := by
    rw [signedAttributes?, hfields, hsequence]
    cases rest with
    | nil => cases hsplit
    | cons first rest =>
      rw [SignerInfo.splitSigned] at hsplit
      by_cases htag : first.tag = Tag.context 0
      · rw [if_pos htag] at hsplit
        cases hsplit
        exact if_pos htag
      · rw [if_neg htag] at hsplit
        cases hsplit
        exact if_neg htag
  rw [hfound]
  refine ⟨hattributes, fun hsome => ?_⟩
  obtain ⟨attributes, rfl⟩ := Option.isSome_iff_exists.mp hsome
  exact SignerInfo.readSigned_some hsigned

end SignedData

end Folio.Signature
