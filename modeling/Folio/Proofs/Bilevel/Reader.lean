import Folio.Bilevel.Basic
import Folio.Proofs.Bytes

/-!
# Reading bilevel data

Main statements: what it means that a reader succeeds, for each way of reading. A number that is read
is the one whose digits come next in the data.
-/

namespace Folio.Bilevel.Reader

variable {α β : Type} {data rest : Bytes} {count n : Nat}

theorem pure_eq_ok {a b : α} : (pure a : Reader α) data = .ok (b, rest) ↔ a = b ∧ data = rest := by
  change Except.ok (a, data) = Except.ok (b, rest) ↔ _
  rw [Except.ok.injEq, Prod.mk.injEq]

theorem throw_ne_ok {e : Error} {r : α × Bytes} : (throw e : Reader α) data ≠ .ok r := by
  intro h
  cases h

theorem get_eq_ok {seen : Bytes} :
    (get : Reader Bytes) data = .ok (seen, rest) ↔ data = seen ∧ data = rest := by
  change Except.ok (data, data) = Except.ok (seen, rest) ↔ _
  rw [Except.ok.injEq, Prod.mk.injEq]

theorem lift_eq_ok {attempt : Except Error α} {a : α} :
    (liftM attempt : Reader α) data = .ok (a, rest) ↔ attempt = .ok a ∧ data = rest := by
  cases attempt with
  | error e => exact iff_of_false (fun h => by cases h) (fun h => by cases h.1)
  | ok b => exact (pure_eq_ok (a := b)).trans (by rw [Except.ok.injEq])

theorem attempt_bind_eq_ok {first : Except Error α} {next : α → Except Error β} {r : β} :
    first >>= next = .ok r ↔ ∃ a, first = .ok a ∧ next a = .ok r := by
  cases first with
  | error e => simp [bind, Except.bind]
  | ok a =>
    constructor
    · intro h
      exact ⟨a, rfl, h⟩
    · rintro ⟨_, hfirst, hnext⟩
      cases hfirst
      exact hnext

theorem bind_eq_ok {first : Reader α} {next : α → Reader β} {r : β × Bytes} :
    (first >>= next) data = .ok r ↔
      ∃ a rest, first data = .ok (a, rest) ∧ next a rest = .ok r := by
  change (first data >>= fun p => next p.1 p.2) = .ok r ↔ _
  rw [attempt_bind_eq_ok, Prod.exists]

theorem bytes_eq_ok {taken : Bytes} :
    bytes count data = .ok (taken, rest) ↔ taken.length = count ∧ data = taken ++ rest := by
  unfold bytes
  rw [← Bytes.splitAt?_eq_some]
  cases data.splitAt? count with
  | none => simp
  | some p => simp

theorem number_eq_ok :
    number count data = .ok (n, rest) ↔ n < 256 ^ count ∧ data = Bytes.ofNatBE count n ++ rest := by
  unfold number
  simp only [bind_eq_ok, bytes_eq_ok, pure_eq_ok]
  constructor
  · rintro ⟨taken, rest, ⟨rfl, rfl⟩, rfl, rfl⟩
    exact ⟨Bytes.toNatBE_lt taken, by rw [Bytes.ofNatBE_toNatBE]⟩
  · rintro ⟨hlt, rfl⟩
    exact ⟨_, _, ⟨Bytes.length_ofNatBE count n, rfl⟩, Bytes.toNatBE_ofNatBE hlt, rfl⟩

theorem number_append (h : n < 256 ^ count) (rest : Bytes) :
    number count (Bytes.ofNatBE count n ++ rest) = .ok (n, rest) :=
  number_eq_ok.mpr ⟨h, rfl⟩

end Folio.Bilevel.Reader
