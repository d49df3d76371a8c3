import Mathlib
import Folio.Draw.Gallery

/-!
# The images met so far

Which stream is drawn for an image follows from the streams that were met, in their order: it is the first one
with the same reference (`Gallery.shown`). Main statements: `Knows.place`, a gallery shows just that, and
`shown_append`, streams that were met earlier make no difference unless another one has their reference.
-/

namespace Folio

namespace Gallery

/-- The first of some streams with a reference. -/
def firstWith? (target : Ref) (met : List Stream) : Option Stream :=
  met.find? fun s => s.reference == some target

/-- What is drawn for a stream that was met last. -/
def shown (met : List Stream) (s : Stream) : Stream :=
  (s.reference.bind fun target => firstWith? target met).getD s

/-- Whether a gallery has a number for each reference met, with the first stream that had it. -/
def Knows (g : Gallery) (met : List Stream) : Prop :=
  ∀ target, (g.shared.lookup target).map g.stream? = (firstWith? target met).map some

variable {g : Gallery} {met : List Stream} {s t : Stream} {target : Ref} {number : Nat}

theorem firstWith?_append (first second : List Stream) :
    firstWith? target (first ++ second) = (firstWith? target first).or (firstWith? target second) :=
  List.find?_append

theorem mem_of_firstWith? (h : firstWith? target met = some s) :
    s ∈ met ∧ s.reference = some target :=
  ⟨List.mem_of_find?_eq_some h, by simpa using List.find?_some h⟩

theorem stream?_add_self (g : Gallery) (s : Stream) :
    (g.add s).2.stream? (g.add s).1 = some s := by
  simp [add, stream?]

/-- A new image takes no number from those before. -/
theorem stream?_add_of_eq_some (h : g.stream? number = some t) (s : Stream) :
    (g.add s).2.stream? number = some t := by
  have hlt : number < g.images.size := by
    by_contra hge
    simp [stream?, Nat.le_of_not_lt hge] at h
  rw [← h]
  simp [add, stream?, Array.getElem?_push, hlt.ne]

theorem knows_empty : ({} : Gallery).Knows [] := fun _ => rfl

theorem Knows.lookup_eq_none (h : g.Knows met) (hlookup : g.shared.lookup target = none) :
    firstWith? target met = none := by
  have := h target
  rw [hlookup] at this
  exact Option.map_eq_none_iff.mp this.symm

theorem Knows.lookup_eq_some (h : g.Knows met) (hlookup : g.shared.lookup target = some number) :
    ∃ first, firstWith? target met = some first ∧ g.stream? number = some first := by
  have hfirst := h target
  rw [hlookup] at hfirst
  obtain ⟨first, hfirst, hstream⟩ := Option.map_eq_some_iff.mp hfirst.symm
  exact ⟨first, hfirst, hstream.symm⟩

/-- An image that is not shared changes nothing for those that are. -/
theorem Knows.add (h : g.Knows met) (s : Stream) : (g.add s).2.Knows met := by
  intro target
  cases hlookup : g.shared.lookup target with
  | none => simp [Gallery.add, hlookup, h.lookup_eq_none hlookup]
  | some number =>
    obtain ⟨first, hfirst, hstream⟩ := h.lookup_eq_some hlookup
    have hkept := stream?_add_of_eq_some hstream s
    simp only [Gallery.add, hlookup, hfirst, Option.map_some] at hkept ⊢
    rw [hkept]

theorem place_of_unshared (h : s.reference = none) : g.place s = g.add s := by
  rw [place, h]

theorem place_of_known (h : s.reference = some target) (hlookup : g.shared.lookup target = some number) :
    g.place s = (number, g) := by
  simp only [place, h, hlookup]

theorem place_of_new (h : s.reference = some target) (hlookup : g.shared.lookup target = none) :
    g.place s = (g.images.size,
      { (g.add s).2 with shared := (target, g.images.size) :: g.shared }) := by
  simp only [place, h, hlookup]
  rfl

theorem firstWith?_append_singleton_of_ne (h : s.reference ≠ some target) :
    firstWith? target (met ++ [s]) = firstWith? target met := by
  have hother : firstWith? target [s] = none := by simp [firstWith?, h]
  rw [firstWith?_append, hother, Option.or_none]

theorem Knows.place_known (h : g.Knows met) (hs : s.reference = some target)
    (hlookup : g.shared.lookup target = some number) :
    g.Knows (met ++ [s]) ∧ g.stream? number = some (shown (met ++ [s]) s) := by
  obtain ⟨first, hfirst, hstream⟩ := h.lookup_eq_some hlookup
  have hkept : firstWith? target (met ++ [s]) = some first := by
    rw [firstWith?_append, hfirst, Option.some_or]
  refine ⟨fun other => ?_, by simp [shown, hs, hkept, hstream]⟩
  by_cases hother : s.reference = some other
  · obtain rfl : target = other := Option.some.inj (hs.symm.trans hother)
    rw [hkept, ← hfirst]
    exact h target
  · rw [firstWith?_append_singleton_of_ne hother]
    exact h other

theorem Knows.place_new (h : g.Knows met) (hs : s.reference = some target)
    (hlookup : g.shared.lookup target = none) :
    (g.place s).2.Knows (met ++ [s]) ∧
      (g.place s).2.stream? (g.place s).1 = some (shown (met ++ [s]) s) := by
  have hadded : (g.add s).2.stream? g.images.size = some s := stream?_add_self g s
  have hself : firstWith? target [s] = some s := by simp [firstWith?, hs]
  have hnew : firstWith? target (met ++ [s]) = some s := by
    rw [firstWith?_append, h.lookup_eq_none hlookup, Option.none_or, hself]
  have hshown : shown (met ++ [s]) s = s := by simp [shown, hs, hnew]
  rw [place_of_new hs hlookup, hshown]
  refine ⟨fun other => ?_, hadded⟩
  by_cases hother : s.reference = some other
  · obtain rfl : target = other := Option.some.inj (hs.symm.trans hother)
    rw [List.lookup_cons_self, hnew]
    exact congrArg some hadded
  · have hne : (other == target) = false := by
      rw [hs] at hother
      simpa using fun h => hother (congrArg some h.symm)
    rw [firstWith?_append_singleton_of_ne hother, List.lookup_cons, hne]
    exact h.add s other

/-- A gallery shows the first stream with the reference of one that it is given, and goes on knowing the first
one with each reference. -/
theorem Knows.place (h : g.Knows met) (s : Stream) :
    (g.place s).2.Knows (met ++ [s]) ∧
      (g.place s).2.stream? (g.place s).1 = some (shown (met ++ [s]) s) := by
  cases hs : s.reference with
  | none =>
    rw [place_of_unshared hs]
    refine ⟨fun target => ?_, by simpa [shown, hs] using stream?_add_self g s⟩
    rw [firstWith?_append_singleton_of_ne (by simp [hs])]
    exact h.add s target
  | some target =>
    cases hlookup : g.shared.lookup target with
    | none => exact h.place_new hs hlookup
    | some number =>
      rw [place_of_known hs hlookup]
      exact h.place_known hs hlookup

/-- Streams that have no reference in common with the ones after them, unless they are the same, do not
change what is drawn for those. -/
theorem shown_append {before : List Stream} (hs : s ∈ met)
    (h : ∀ e ∈ before, ∀ t ∈ met, ∀ target, e.reference = some target → t.reference = some target →
      e = t) : shown (before ++ met) s = shown met s := by
  unfold shown
  cases hreference : s.reference with
  | none => rfl
  | some target =>
    simp only [Option.bind_some]
    rw [firstWith?_append]
    cases hbefore : firstWith? target before with
    | none => rfl
    | some e =>
      obtain ⟨he, hereference⟩ := mem_of_firstWith? hbefore
      cases hfirst : firstWith? target met with
      | none => exact h e he s hs target hereference hreference
      | some t =>
        obtain ⟨ht, htreference⟩ := mem_of_firstWith? hfirst
        exact h e he t ht target hereference htreference

end Gallery

end Folio
