import Folio.Proofs.Signature.RoundTrip

/-!
# The certificate of the signer

A certificate is matched to the signer by the name of its issuer and by the bytes of its serial number without
leading zeros. Main statement: `identifies_signer`, the issuers are equal, and the serial numbers are equal
as integers unless one of them is negative and the other one is not: a zero before a set bit is dropped although
it is the sign.
-/

namespace Folio.Signature.SignedData

open Asn1

variable {data : Bytes} {s : SignedData}

theorem signerIdentifier?_eq (h : parse data = .ok s) : ∃ issuer serial,
    signerIdentifier? data = some (issuer, serial) ∧ s.signer.issuer = issuer.raw ∧
      serial.integer = .ok s.signer.serialNumber := by
  obtain ⟨signer, hfields, hsigner, -⟩ := parse_eq_ok h
  obtain ⟨version, id, digestAlgorithm, rest, -, -, -, -, n, hsequence, -, -, hidentifier, -⟩ :=
    SignerInfo.ofElement_eq_ok.mp hsigner
  obtain ⟨issuer, serial, others, hid, hissuer, hserial⟩ := SignerInfo.readIdentifier_eq_ok hidentifier
  refine ⟨issuer, serial, ?_, hissuer, hserial⟩
  simp only [signerIdentifier?, hfields, hsequence, hid, Except.toOption, Option.bind_eq_bind, Option.bind_some,
    List.getElem?_cons_succ, List.getElem?_cons_zero]

/-- The signer's certificate has the issuer and the serial number that identify the signer, if the signs of the
serial numbers agree. -/
theorem identifies_signer (h : parse data = .ok s) : ∃ issuer serial ownIssuer ownSerial,
    signerIdentifier? data = some (issuer, serial) ∧
      Certificate.identifier? s.signerCertificate.raw = some (ownIssuer, ownSerial) ∧
      ownIssuer.raw = issuer.raw ∧
      (Integer.value ownSerial.contents = Integer.value serial.contents ↔
        (Integer.value ownSerial.contents < 0 ↔ Integer.value serial.contents < 0)) := by
  obtain ⟨issuer, serial, hidentifier, hissuer, hserial⟩ := signerIdentifier?_eq h
  obtain ⟨_, -, -, hcertificate, hsameIssuer, hsameSerial⟩ := parse_eq_ok h
  obtain ⟨e, hparse, hown⟩ := Except.bind_eq_ok.mp hcertificate
  obtain ⟨ownIssuer, ownSerial, hownIdentifier, hownIssuer, hownSerial⟩ :=
    Certificate.identifier?_of_ofElement (liftM_eq_ok.mp hparse) hown
  refine ⟨issuer, serial, ownIssuer, ownSerial, hidentifier, hownIdentifier, ?_, ?_⟩
  · rw [← hownIssuer, hsameIssuer, hissuer]
  · apply Integer.value_eq_iff_of_dropZeros_eq
    obtain ⟨-, -, hbytes⟩ := Element.integer_eq_ok.mp hserial
    obtain ⟨-, -, hownBytes⟩ := Element.integer_eq_ok.mp hownSerial
    rw [hbytes, hownBytes, hsameSerial]

theorem identifies_signer_sample :
    let data := (signedDataTree [42] [0, 42] .sha256 partsTree).encode
    let s := signedDataOf [42] [0, 42] .sha256
    parse data = .ok s ∧ ∃ issuer serial ownIssuer ownSerial,
      signerIdentifier? data = some (issuer, serial) ∧
        Certificate.identifier? s.signerCertificate.raw = some (ownIssuer, ownSerial) ∧
        ownIssuer.raw = issuer.raw ∧
        (Integer.value ownSerial.contents = Integer.value serial.contents ↔
          (Integer.value ownSerial.contents < 0 ↔ Integer.value serial.contents < 0)) := by
  have hparse : parse (signedDataTree [42] [0, 42] .sha256 partsTree).encode =
      .ok (signedDataOf [42] [0, 42] .sha256) := by decide +kernel
  exact ⟨hparse, identifies_signer hparse⟩

/-- A certificate with the serial number -1 is taken for that of a signer with the serial number 255. -/
theorem not_forall_identifies_signer : ¬ ∀ data s, parse data = .ok s →
    ∀ issuer serial ownIssuer ownSerial, signerIdentifier? data = some (issuer, serial) →
      Certificate.identifier? s.signerCertificate.raw = some (ownIssuer, ownSerial) →
      ownIssuer.raw = issuer.raw ∧ Integer.value ownSerial.contents = Integer.value serial.contents := by
  intro h
  have hparse : parse (signedDataTree [0xFF] [0, 0xFF] .sha256 partsTree).encode =
      .ok (signedDataOf [0xFF] [0, 0xFF] .sha256) := by decide +kernel
  have hsigner : signerIdentifier? (signedDataTree [0xFF] [0, 0xFF] .sha256 partsTree).encode =
      some ((nameTree [67, 65]).element, ⟨0x02, [0x02, 0x02, 0, 0xFF], [0, 0xFF]⟩) := by decide +kernel
  have hown : Certificate.identifier? (signedDataOf [0xFF] [0, 0xFF] .sha256).signerCertificate.raw =
      some ((nameTree [67, 65]).element, ⟨0x02, [0x02, 0x01, 0xFF], [0xFF]⟩) := by decide +kernel
  have hserial : Integer.value [0xFF] = Integer.value [0, 0xFF] := (h _ _ hparse _ _ _ _ hsigner hown).2
  exact absurd hserial (by decide)

end Folio.Signature.SignedData
