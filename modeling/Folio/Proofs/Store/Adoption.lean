import Folio.Proofs.Store.Body

/-!
# Two ways into the store

An object enters the store by `insert`, which adopts it, or from a document's body, where the reader
attributes its strings and streams. Main statement: `insert_eq_ofBody_iff`. Both ways give the same object
unless it is a stream whose dictionary holds a string: adoption does not look into the dictionaries of
streams.
-/

namespace Folio

open Syntax (Printable Definable WrittenWhole DefinitionText BodyText parseObject?)

variable {o : Object} {d : Dict} {owner target : Ref} {levels : Nat} {code text : Bytes}

mutual

/-- Whether there is a string in an object, at any depth. -/
def Object.holdsString : Object → Bool
  | .str _ => true
  | .array items => Object.anyHoldsString items
  | .dict ⟨entries⟩ => Object.anyValueHoldsString entries
  | .stream ⟨⟨entries⟩, _, _⟩ => Object.anyValueHoldsString entries
  | _ => false

/-- Whether there is a string in one of the objects. -/
def Object.anyHoldsString : List Object → Bool
  | [] => false
  | x :: xs => Object.holdsString x || Object.anyHoldsString xs

/-- Whether there is a string in the value of one of the entries. -/
def Object.anyValueHoldsString : List (Name × Object) → Bool
  | [] => false
  | (_, x) :: xs => Object.holdsString x || Object.anyValueHoldsString xs

end

namespace Object

theorem anyHoldsString_eq_any (items : List Object) : anyHoldsString items = items.any holdsString := by
  induction items with
  | nil => rfl
  | cons x xs ih => rw [anyHoldsString, ih, List.any_cons]

theorem anyValueHoldsString_eq_any (entries : List (Name × Object)) :
    anyValueHoldsString entries = entries.any fun p => p.2.holdsString := by
  induction entries with
  | nil => rfl
  | cons p entries ih =>
    obtain ⟨k, x⟩ := p
    rw [anyValueHoldsString, ih, List.any_cons]

theorem adoptItems_eq_map (items : List Object) : adoptItems owner items = items.map (adopt owner) := by
  induction items with
  | nil => rfl
  | cons x xs ih => rw [adoptItems, ih, List.map_cons]

theorem adoptEntries_eq_map (entries : List (Name × Object)) :
    adoptEntries owner entries = entries.map fun p => (p.1, adopt owner p.2) := by
  induction entries with
  | nil => rfl
  | cons p entries ih =>
    obtain ⟨k, x⟩ := p
    rw [adoptEntries, ih, List.map_cons]

/-- Adoption finds every string of an object that is no stream. -/
theorem adopt_eq_ownedBy (h : Printable levels o) : o.adopt owner = o.ownedBy (some owner) := by
  induction h with
  | array _ ih => rw [adopt, adoptItems_eq_map, ownedBy_array, List.map_congr_left ih]
  | @dict _ d _ _ _ ih =>
    obtain ⟨entries⟩ := d
    have hentries : ∀ p ∈ entries, (p.1, p.2.adopt owner) = (p.1, p.2.ownedBy (some owner)) :=
      fun p hp => Prod.ext rfl (ih p hp)
    rw [adopt, adoptEntries_eq_map, List.map_congr_left hentries, ownedBy, ownedEntries_eq_map]
  | _ => rfl

theorem map_eq_self_iff {α : Type} {f : α → α} {xs : List α} : xs.map f = xs ↔ ∀ x ∈ xs, f x = x := by
  have hid : xs.map f = xs.map id ↔ ∀ x ∈ xs, f x = id x := List.map_inj_left
  rwa [List.map_id] at hid

/-- An object without owners that holds a string is not the same once it has an owner. -/
theorem ownedBy_eq_self_iff (h : Printable levels o) :
    o.ownedBy (some owner) = o ↔ o.holdsString = false := by
  induction h with
  | literal bytes => simp [holdsString]
  | hex _ => simp [holdsString]
  | @array _ items _ ih =>
    rw [ownedBy_array, Object.array.injEq, map_eq_self_iff, holdsString, anyHoldsString_eq_any,
      List.any_eq_false]
    refine forall₂_congr fun x hx => ?_
    rw [ih x hx, Bool.not_eq_true]
  | @dict _ d _ _ _ ih =>
    obtain ⟨entries⟩ := d
    rw [ownedBy, ownedEntries_eq_map, Object.dict.injEq, Dict.mk.injEq, map_eq_self_iff, holdsString,
      anyValueHoldsString_eq_any, List.any_eq_false]
    refine forall₂_congr fun p hp => ?_
    rw [Bool.not_eq_true, ← ih p hp, Prod.ext_iff]
    exact and_iff_right rfl
  | _ => exact iff_of_true rfl rfl

/-- Whether an object is a stream with a string in its dictionary. -/
def hidesString : Object → Bool
  | .stream s => (Object.dict s.dict).holdsString
  | _ => false

theorem adopt_eq_ownedBy_iff (h : Definable o) :
    o.adopt owner = o.ownedBy (some owner) ↔ o.hidesString = false := by
  cases h with
  | direct h =>
    have hnone : o.hidesString = false := by cases h <;> rfl
    exact iff_of_true (adopt_eq_ownedBy h) hnone
  | @stream d data _ h _ _ =>
    have hdict := @ownedBy_eq_self_iff _ owner _ h
    rw [ownedBy_dict, Object.dict.injEq] at hdict
    have hadopt : adopt owner (.stream ⟨d, data, none⟩) = .stream ⟨d, data, some owner⟩ := by
      rw [adopt]
      rfl
    rw [hadopt, ownedBy_stream, hidesString, ← hdict, Object.stream.injEq, Stream.mk.injEq]
    constructor
    · intro h
      exact h.1.symm
    · intro h
      exact ⟨h.symm, rfl, rfl⟩

end Object

namespace Store

/-- Whether an object is stored alike by insertion and from a body, however it is written. -/
def StoredAlike (o : Object) : Prop :=
  ∀ target text code, WrittenWhole o text → DefinitionText target text code → ∀ s : Store,
    ∃ parsed body, parseObject? text = some parsed ∧ ofBody code = .ok body ∧
      (s.insert target parsed).get? target = body.get? target

theorem ofBody_definitionText (hd : Definable o) (hw : WrittenWhole o text)
    (hcode : DefinitionText target text code) :
    ∃ body, ofBody code = .ok body ∧ body.get? target = some (o.ownedBy (some target)) := by
  have hbody : BodyText [(target, o)] ([] ++ (code ++ [])) := .cons .nil hw hcode (.nil .nil)
  rw [List.nil_append, List.append_nil] at hbody
  have hof := ofBody_eq_define (by simp) (by simpa using hd) hbody
  refine ⟨_, hof, ?_⟩
  rw [get?_define]
  simp

theorem insert_eq_ofBody_iff (hd : Definable o) (hw : WrittenWhole o text)
    (hcode : DefinitionText target text code) (s : Store) :
    ∃ parsed body, parseObject? text = some parsed ∧ ofBody code = .ok body ∧
      ((s.insert target parsed).get? target = body.get? target ↔ o.hidesString = false) := by
  obtain ⟨body, hbody, hget⟩ := ofBody_definitionText hd hw hcode
  have hparse := Syntax.parseObject?_writtenWhole hd hw .nil (.ended Syntax.isBlank_nil)
  rw [List.nil_append, List.append_nil] at hparse
  refine ⟨o, body, hparse, hbody, ?_⟩
  rw [insert, get?_put, if_pos rfl, hget, Option.some.injEq]
  exact Object.adopt_eq_ownedBy_iff hd

theorem StoredAlike.hidesString_eq_false (hd : Definable o) (h : StoredAlike o) :
    o.hidesString = false := by
  have hw := Syntax.writtenWhole_print hd
  have hcode := Syntax.definitionText_print ⟨1, 0⟩ o
  obtain ⟨parsed, body, hparse, hbody, heq⟩ := h ⟨1, 0⟩ _ _ hw hcode empty
  obtain ⟨parsed', body', hparse', hbody', hiff⟩ := insert_eq_ofBody_iff hd hw hcode empty
  obtain rfl := Option.some.inj (hparse.symm.trans hparse')
  obtain rfl := Except.ok.inj (hbody.symm.trans hbody')
  exact hiff.mp heq

/-- An object that can be defined is stored alike if and only if it hides no string in the dictionary of
a stream. -/
theorem storedAlike_iff (hd : Definable o) : StoredAlike o ↔ o.hidesString = false := by
  constructor
  · intro h
    exact h.hidesString_eq_false hd
  · intro h target text code hw hcode s
    obtain ⟨parsed, body, hparse, hbody, hiff⟩ := insert_eq_ofBody_iff hd hw hcode s
    exact ⟨parsed, body, hparse, hbody, hiff.mpr h⟩

/-- A stream with one byte of data and a string in its dictionary. -/
def labelledStream : Object :=
  .stream ⟨⟨[("Length", .ofInt 1), ("S", .str ⟨.literal [97], none⟩)]⟩, [120], none⟩

theorem definable_labelledStream : Definable labelledStream := by
  have hdict : ∀ n, Printable (n + 2)
      (.dict ⟨[("Length", .ofInt 1), ("S", .str ⟨.literal [97], none⟩)]⟩) := by
    intro n
    refine .dict ?_ ?_ ?_
    · exact List.pairwise_pair.mpr (by decide)
    · simp [Object.isNull, Object.ofInt]
    · simp only [List.forall_mem_cons, Object.ofInt]
      exact ⟨.integer _, .literal _, by simp⟩
  exact .stream (hdict 255) rfl (by decide)

/-- The string is stored alike where it stands alone, and not in the dictionary of the stream. -/
theorem storedAlike_iff_labelledStream : Definable labelledStream ∧
    ¬ StoredAlike labelledStream ∧ StoredAlike (.str ⟨.literal [97], none⟩) := by
  have hstring : Definable (.str ⟨.literal [97], none⟩) := .direct (.literal _)
  refine ⟨definable_labelledStream, fun h => ?_, (storedAlike_iff hstring).mpr rfl⟩
  exact absurd ((storedAlike_iff definable_labelledStream).mp h) (by decide)

theorem not_forall_storedAlike : ¬ ∀ o, Definable o → StoredAlike o := by
  intro h
  have hstored := h labelledStream definable_labelledStream
  exact absurd (hstored.hidesString_eq_false definable_labelledStream) (by decide)

end Store

end Folio
