import Folio.Proofs.Signature.Anatomy
import Folio.Proofs.Signature.RoundTrip

/-!
# What a signature binds

A validation depends on a document through the bytes that are covered. Main statements: `modified_eq_false_iff`,
when a document counts as unmodified, and `validate_binds`, equal covered parts are judged alike and of two
documents with different digests at most one is unmodified.
-/

namespace Folio.Signature

open Asn1

variable {data document : Bytes} {range : ByteRange} {covered : Bytes × Bytes}

namespace ByteRange

/-- The part of a document with an offset and a length. -/
def part (place : Nat × Nat) (document : Bytes) : Bytes := (document.drop place.1).take place.2

/-- The covered bytes of a document. -/
def bytes (range : ByteRange) (document : Bytes) : Bytes :=
  part range.first document ++ part range.second document

/-- Whether both parts lie inside a document. -/
def LiesIn (range : ByteRange) (document : Bytes) : Prop :=
  range.first.1 + range.first.2 ≤ document.length ∧ range.second.1 + range.second.2 ≤ document.length

theorem slice?_eq_some {place : Nat × Nat} {bytes : Bytes} :
    document.slice? place.1 (place.1 + place.2) = some bytes ↔
      place.1 + place.2 ≤ document.length ∧ part place document = bytes := by
  rw [Bytes.slice?, part, Nat.add_sub_cancel_left]
  simp

theorem covered?_eq_some : range.covered? document = some covered ↔ range.LiesIn document ∧
    part range.first document = covered.1 ∧ part range.second document = covered.2 := by
  simp only [covered?, Option.bind_eq_bind, Option.bind_eq_some_iff, slice?_eq_some, Option.some.injEq]
  constructor
  · rintro ⟨first, ⟨hfirst, rfl⟩, second, ⟨hsecond, rfl⟩, rfl⟩
    exact ⟨⟨hfirst, hsecond⟩, rfl, rfl⟩
  · rintro ⟨⟨hfirst, hsecond⟩, hpart, hpart'⟩
    exact ⟨_, ⟨hfirst, hpart⟩, _, ⟨hsecond, hpart'⟩, rfl⟩

theorem bytes_eq (h : range.covered? document = some covered) : range.bytes document = covered.1 ++ covered.2 := by
  obtain ⟨-, hfirst, hsecond⟩ := covered?_eq_some.mp h
  rw [bytes, hfirst, hsecond]

end ByteRange

namespace SignedData

variable {s : SignedData} {verifier : Verifier} {trust : Option TrustStore} {digest : Digest.Algorithm}

/-- The message that the signature value is about: the signed attributes as a set, without them the content,
and without that the covered bytes. -/
def messageIn (data : Bytes) (content : Option Bytes) (covered : Bytes) : Bytes :=
  match signedAttributes? data, content with
  | some attributes, _ => Tag.set :: attributes.raw.tail
  | none, some content => content
  | none, none => covered

theorem documentDigest_eq (digest : Digest.Algorithm) (covered : Bytes × Bytes) :
    documentDigest digest covered = digest.digest (covered.1 ++ covered.2) := by
  simp [documentDigest, Digest.Hasher.update, Digest.Hasher.finish]

theorem signedMessage_eq (h : parse data = .ok s) (covered : Bytes × Bytes) :
    s.signedMessage covered = messageIn data s.content (covered.1 ++ covered.2) := by
  rw [signedMessage.eq_def, messageIn.eq_def, (signedAttributes_eq h).1]
  cases signedAttributes? data with
  | none => cases s.content <;> rfl
  | some attributes => exact congrArg (Tag.set :: ·) List.drop_one

/-- The covered parts are all of a document that matters. -/
theorem validate_congr {other : Bytes} (h : range.covered? document = range.covered? other) :
    s.validate verifier trust document range = s.validate verifier trust other range := by
  simp only [validate, check?, h]

/-- What has to hold of covered bytes to count as unmodified: the signature is verified, the content is their
digest, and among the signed attributes there is their digest or that of the content. -/
structure Vouches (s : SignedData) (data : Bytes) (verifier : Verifier) (digest : Digest.Algorithm)
    (bytes : Bytes) : Prop where
  verified : verifier ⟨s.signerCertificate, digest, s.signer.signatureAlgorithm,
    messageIn data s.content bytes, s.signer.signature⟩ = true
  content : ∀ content ∈ s.content, content = digest.digest bytes
  attributes : (signedAttributes? data).isSome = true →
    s.signer.messageDigest = some (digest.digest bytes) ∨
      ∃ content ∈ s.content, s.signer.messageDigest = some (digest.digest content)

theorem contentMatches_iff : s.contentMatches digest covered = true ↔
    ∀ content ∈ s.content, content = digest.digest (covered.1 ++ covered.2) := by
  rw [contentMatches, documentDigest_eq]
  cases s.content <;> simp

theorem digestMatches_iff (h : parse data = .ok s) : s.digestMatches digest covered = true ↔
    ((signedAttributes? data).isSome = true →
      s.signer.messageDigest = some (digest.digest (covered.1 ++ covered.2)) ∨
        ∃ content ∈ s.content, s.signer.messageDigest = some (digest.digest content)) := by
  obtain ⟨hattributes, hmessage⟩ := signedAttributes_eq h
  rw [digestMatches.eq_def, documentDigest_eq, hattributes]
  cases hsigned : signedAttributes? data with
  | none => simp
  | some attributes =>
    obtain ⟨stated, hstated⟩ := Option.isSome_iff_exists.mp (hmessage (by rw [hsigned]; rfl))
    rw [hstated]
    simp only [Option.map_some, Option.isSome_some, forall_const, Bool.or_eq_true, beq_iff_eq, Option.any_eq_true,
      Option.some.injEq, Option.mem_def, @eq_comm _ stated]
    exact or_comm

/-- When a document counts as unmodified. -/
theorem modified_eq_false_iff (h : parse data = .ok s) :
    (s.validate verifier trust document range).modified = false ↔ range.LiesIn document ∧
      ∃ digest, s.signer.digestAlgorithm? = some digest ∧
        s.Vouches data verifier digest (range.bytes document) := by
  cases hdigest : s.signer.digestAlgorithm? with
  | none => simp [validate, check?, hdigest]
  | some digest =>
    cases hcovered : range.covered? document with
    | none =>
      have houtside : ¬ range.LiesIn document := by
        intro hinside
        have hsome : range.covered? document =
            some (ByteRange.part range.first document, ByteRange.part range.second document) :=
          ByteRange.covered?_eq_some.mpr ⟨hinside, rfl, rfl⟩
        rw [hsome] at hcovered
        cases hcovered
      simp [validate, check?, hdigest, hcovered, houtside]
    | some covered =>
      have hinside := (ByteRange.covered?_eq_some.mp hcovered).1
      have hvouches : s.Vouches data verifier digest (range.bytes document) ↔
          (s.digestMatches digest covered = true ∧ verifier ⟨s.signerCertificate, digest,
            s.signer.signatureAlgorithm, s.signedMessage covered, s.signer.signature⟩ = true) ∧
          s.contentMatches digest covered = true := by
        rw [ByteRange.bytes_eq hcovered, digestMatches_iff h, contentMatches_iff, signedMessage_eq h]
        exact ⟨fun ⟨hverified, hcontent, hattributes⟩ => ⟨⟨hattributes, hverified⟩, hcontent⟩,
          fun ⟨⟨hattributes, hverified⟩, hcontent⟩ => ⟨hverified, hcontent, hattributes⟩⟩
      simp only [validate, check?, hdigest, hcovered, Option.bind_eq_bind, Option.bind_some, Bool.not_eq_false',
        Bool.and_eq_true, Option.some.injEq, exists_eq_left', hinside, true_and, hvouches]

/-- The digest of covered bytes that count as unmodified is the content, or else among the signed attributes. -/
theorem Vouches.digest_eq {bytes : Bytes} (h : s.Vouches data verifier digest bytes)
    (hsigned : (signedAttributes? data).isSome = true ∨ s.content.isSome = true) :
    s.content.or s.signer.messageDigest = some (digest.digest bytes) := by
  obtain ⟨-, hcontent, hattributes⟩ := h
  cases hbytes : s.content with
  | some content => rw [Option.some_or, hcontent content hbytes]
  | none =>
    rw [hbytes] at hsigned hattributes
    rw [Option.none_or]
    rcases hattributes (hsigned.resolve_right (by decide)) with hdigest | ⟨content, hnone, -⟩
    · exact hdigest
    · cases hnone

/-- Signatures bind the covered bytes. -/
theorem validate_binds (h : parse data = .ok s) (verifier : Verifier) (trust : Option TrustStore)
    (range : ByteRange) :
    (∀ d₁ d₂, range.covered? d₁ = range.covered? d₂ →
      s.validate verifier trust d₁ range = s.validate verifier trust d₂ range) ∧
    ((signedAttributes? data).isSome = true ∨ s.content.isSome = true → ∀ d₁ d₂,
      (∀ digest, s.signer.digestAlgorithm? = some digest →
        digest.digest (range.bytes d₁) ≠ digest.digest (range.bytes d₂)) →
      (s.validate verifier trust d₁ range).modified = true ∨
        (s.validate verifier trust d₂ range).modified = true) ∧
    ∀ document, (s.validate verifier trust document range).modified = false ↔ range.LiesIn document ∧
      ∃ digest, s.signer.digestAlgorithm? = some digest ∧
        s.Vouches data verifier digest (range.bytes document) := by
  refine ⟨fun d₁ d₂ => validate_congr, ?_, fun document => modified_eq_false_iff h⟩
  intro hsigned d₁ d₂ hdiffer
  by_contra hboth
  rw [not_or, Bool.not_eq_true, Bool.not_eq_true] at hboth
  obtain ⟨-, digest, hdigest, hfirst⟩ := (modified_eq_false_iff h).mp hboth.1
  obtain ⟨-, digest', hdigest', hsecond⟩ := (modified_eq_false_iff h).mp hboth.2
  obtain rfl : digest = digest' := Option.some_inj.mp (hdigest.symm.trans hdigest')
  have hsame := (hfirst.digest_eq hsigned).symm.trans (hsecond.digest_eq hsigned)
  exact hdiffer digest hdigest (Option.some_inj.mp hsame)

theorem validate_binds_sample :
    let s := signedDataOf [42] [0, 42] .sha256
    let outcome := fun document => s.validate (fun _ => true) none document ⟨(0, 1), (2, 1)⟩
    parse (signedDataTree [42] [0, 42] .sha256 partsTree).encode = .ok s ∧
      outcome [1, 0, 2] = outcome [1, 9, 2] ∧
      ((outcome [1, 0, 2]).modified = true ∨ (outcome [1, 0, 3]).modified = true) := by
  have hparse : parse (signedDataTree [42] [0, 42] .sha256 partsTree).encode =
      .ok (signedDataOf [42] [0, 42] .sha256) := by decide +kernel
  obtain ⟨hsame, hdiffer, -⟩ := validate_binds hparse (fun _ => true) none ⟨(0, 1), (2, 1)⟩
  refine ⟨hparse, hsame [1, 0, 2] [1, 9, 2] rfl, hdiffer (.inr rfl) [1, 0, 2] [1, 0, 3] ?_⟩
  intro digest hdigest
  obtain rfl : Digest.Algorithm.sha256 = digest := Option.some_inj.mp hdigest
  decide +kernel

end SignedData

end Folio.Signature
