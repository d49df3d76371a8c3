import Folio.Proofs.Asn1.Extent
import Folio.Signature.SignedData

/-!
# Signatures in placeholders

A signature is written into a placeholder that has more room than it needs, so bytes follow it. Main
statement: `parse_placeholder`, these bytes do not matter, and a signature for which the placeholder is too
short is noticed.
-/

namespace Folio.Signature.SignedData

open Asn1

variable {data rest : Bytes} {e : Element} {n : Nat}

theorem parse_eq_of_element {other : Bytes} (h : Element.parse other = Element.parse data) :
    parse other = parse data := by
  rw [parse, parse, h]

theorem parse_eq_error {error : Asn1.Error} (h : Element.parse data = .error error) :
    parse data = .error (.encoding error) := by
  rw [parse, h]
  rfl

/-- The bytes after the outermost element do not matter, and if the element is cut short, the data ends too
early. -/
theorem parse_placeholder (h : Element.read data = .ok (e, rest)) (hn : data.length = n + rest.length) :
    (∀ padding, parse (data.take n ++ padding) = parse data) ∧
      ∀ k < n, parse (data.take k) = .error (.encoding .unexpectedEnd) := by
  obtain ⟨rfl, hraw⟩ := Element.consumes_raw h
  have hlength : n = e.raw.length := by
    rw [List.length_append] at hn
    omega
  subst hlength
  constructor
  · intro padding
    apply parse_eq_of_element
    rw [List.take_left, hraw.parse_append, hraw.parse_append]
  · intro k hk
    apply parse_eq_error
    rw [List.take_append_of_le_length (Nat.le_of_lt hk), hraw.parse_take hk]

/-- The element has no end of its own inside it, although its contents look like one. -/
theorem parse_placeholder_indefinite :
    let data : Bytes := [0x30, 0x80, 0x30, 0x80, 0, 0, 0x04, 0x02, 0, 0, 0, 0, 0, 0, 0xFF]
    Element.read data = .ok (⟨0x30, data.take 12, [0x30, 0x80, 0, 0, 0x04, 0x02, 0, 0]⟩, [0, 0, 0xFF]) ∧
      (∀ padding, parse (data.take 12 ++ padding) = parse data) ∧
      ∀ k < 12, parse (data.take k) = .error (.encoding .unexpectedEnd) :=
  ⟨rfl, parse_placeholder rfl rfl⟩

end Folio.Signature.SignedData
