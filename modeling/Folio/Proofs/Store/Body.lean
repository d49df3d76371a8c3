import Folio.Proofs.Syntax.RoundTrip
import Folio.Store.Body

/-!
# The body of a document

Main statement: `ofBody_bodyText`. Definitions written one after the other give a store of the references
that they define, each with the last object that is defined under it, in which the reference is the owner
of every string and stream.
-/

namespace Folio

variable {target r : Ref} {o : Object} {code text blank rest : Bytes}
variable {definitions : List (Ref × Object)} {s : Store}

namespace Syntax

/-- The texts of a definition: a reference, the object's text, and words and white space around it. -/
inductive DefinitionText (target : Ref) (text : Bytes) : Bytes → Prop
  | intro {first second third last : Bytes} :
    IsBlank first → first ≠ [] → IsBlank second → second ≠ [] → IsBlank third →
      IsBlank last → last ≠ [] →
      DefinitionText target text (integerText target.number.toInt ++ (first ++
        (integerText target.generation.toInt ++ (second ++ (Bytes.ofAscii "obj" ++ (third ++
          (text ++ (last ++ Bytes.ofAscii "endobj"))))))))

theorem skipSpace_integerText (h : IsBlank blank) (i : Int) (rest : Bytes) :
    skipSpace (blank ++ (integerText i ++ rest)) = integerText i ++ rest := by
  obtain ⟨b, tail, htext, hb⟩ := integerText_eq_cons i
  rw [h.spacing.skipSpace_append, htext, List.cons_append, skipSpace_opens (opensObject_of_number hb)]

theorem readIndirect?_definitionText (h : DefinitionText target text code) (hd : Definable o)
    (hw : WrittenWhole o text) (rest : Bytes) :
    readIndirect? (code ++ rest) = some ((target, o.ownedBy (some target)), rest) := by
  cases h with
  | @intro first second third last hfirst hfirstNe hsecond hsecondNe hthird hlast hlastNe =>
    have hends : Ends (last ++ (Bytes.ofAscii "endobj" ++ rest)) :=
      ends_append_cons hlast (hlast.endsWord_append hlastNe _) (by decide) (by decide) (by decide)
        (by decide) fun _ _ hread => by cases hread.symm.trans (readInteger?_eq_none rfl)
    have hobject := @readObject?_writtenWhole o text _ (some target) hd hw hends
    rw [readObject?] at hobject
    have hnumber := skipSpace_integerText isBlank_nil target.number.toInt
    have hword : ∀ rest, skipSpace (Bytes.ofAscii "obj" ++ rest) = Bytes.ofAscii "obj" ++ rest :=
      fun _ => rfl
    have hclose : skipSpace (Bytes.ofAscii "endobj" ++ rest) = Bytes.ofAscii "endobj" ++ rest := rfl
    simp only [List.nil_append] at hnumber
    simp only [List.append_assoc, readIndirect?, hnumber,
      readInteger?_int32 _ (hfirst.endsWord_append hfirstNe _), skipSpace_integerText hfirst,
      readInteger?_int32 _ (hsecond.endsWord_append hsecondNe _), hsecond.spacing.skipSpace_append,
      hword, Bytes.dropTag?_append, Int32.toInt_toInt64, Ref.ofInts?_toInt, readObject?,
      readNested?_spacing hthird.spacing, hobject, hlast.spacing.skipSpace_append, hclose,
      Option.bind_eq_bind, Option.bind_some, Option.getD_some]

theorem DefinitionText.eq_cons (h : DefinitionText target text code) :
    ∃ b tail, code = b :: tail ∧ skipSpace (code ++ rest) = code ++ rest := by
  cases h with
  | intro =>
    obtain ⟨b, tail, htext, -⟩ := integerText_eq_cons target.number.toInt
    refine ⟨b, _, by rw [htext, List.cons_append], ?_⟩
    rw [List.append_assoc]
    exact skipSpace_integerText isBlank_nil _ _

/-- The texts of definitions one after the other, with white space and comments around them. -/
inductive BodyText : List (Ref × Object) → Bytes → Prop
  | nil {lead : Bytes} : Spacing lead → BodyText [] lead
  | cons {target : Ref} {o : Object} {definitions : List (Ref × Object)}
    {lead text code rest : Bytes} :
    Spacing lead → WrittenWhole o text → DefinitionText target text code →
      BodyText definitions rest → BodyText ((target, o) :: definitions) (lead ++ (code ++ rest))

/-- The definition of an object with single spaces. -/
def printDefinition (target : Ref) (o : Object) : Bytes :=
  integerText target.number.toInt ++ ([32] ++ (integerText target.generation.toInt ++ ([32] ++
    (Bytes.ofAscii "obj" ++ ([32] ++ (print o ++ ([32] ++ Bytes.ofAscii "endobj")))))))

/-- The definitions of some objects, each after a line feed. -/
def printBody : List (Ref × Object) → Bytes
  | [] => []
  | (target, o) :: definitions => [10] ++ (printDefinition target o ++ printBody definitions)

theorem definitionText_print (target : Ref) (o : Object) :
    DefinitionText target (print o) (printDefinition target o) :=
  have hne : [32] ≠ ([] : Bytes) := List.cons_ne_nil _ _
  .intro isBlank_space hne isBlank_space hne isBlank_space isBlank_space hne

theorem bodyText_printBody (hd : ∀ p ∈ definitions, Definable p.2) :
    BodyText definitions (printBody definitions) := by
  induction definitions with
  | nil => exact .nil .nil
  | cons p definitions ih =>
    obtain ⟨target, o⟩ := p
    obtain ⟨hfirst, hd⟩ := List.forall_mem_cons.mp hd
    have hline : Spacing [10] := .blank rfl .nil
    exact .cons hline (writtenWhole_print hfirst) (definitionText_print target o) (ih hd)

end Syntax

namespace Store

open Syntax

/-- The store with objects put under their references, each with its reference as the owner. -/
def define (s : Store) (definitions : List (Ref × Object)) : Store :=
  definitions.foldl (fun s p => s.put p.1 (p.2.ownedBy (some p.1))) s

theorem scan_bodyText (h : BodyText definitions text) (hd : ∀ p ∈ definitions, Definable p.2)
    {fuel : Nat} (hfuel : text.length ≤ fuel) (s : Store) :
    scan fuel s text = s.define definitions := by
  induction h generalizing fuel s with
  | @nil lead hlead =>
    cases fuel with
    | zero => rfl
    | succ fuel =>
      have hskip := hlead.skipSpace_append []
      rw [List.append_nil] at hskip
      rw [scan, hskip]
      rfl
  | @cons target o definitions lead text code rest hlead hw hcode _ ih =>
    obtain ⟨hfirst, hd⟩ := List.forall_mem_cons.mp hd
    obtain ⟨b, tail, rfl, hskip⟩ := @DefinitionText.eq_cons _ _ _ rest hcode
    simp only [List.length_append, List.length_cons] at hfuel
    obtain ⟨fuel, rfl⟩ : ∃ n, fuel = n + 1 := Nat.exists_eq_add_one.mpr (by omega)
    have hread := readIndirect?_definitionText hcode hfirst hw rest
    rw [List.cons_append] at hskip hread
    rw [scan, hlead.skipSpace_append, List.cons_append, hskip]
    simp only [hread]
    rw [ih hd (by omega)]
    rfl

theorem findObject_putObject (objects : List (Ref × Object)) :
    findObject r (putObject target o objects) =
      if r = target then some o else findObject r objects := by
  induction objects with
  | nil => simp [putObject, findObject]
  | cons p objects ih =>
    obtain ⟨k, x⟩ := p
    rw [putObject]
    by_cases hk : target = k
    · subst hk
      by_cases hr : r = target
      · simp [findObject, hr]
      · simp [findObject, hr]
    · rw [if_neg hk, findObject, ih]
      by_cases hr : r = k
      · subst hr
        simp [findObject, Ne.symm hk]
      · simp [findObject, hr]

theorem get?_put (s : Store) : (s.put target o).get? r = if r = target then some o else s.get? r :=
  findObject_putObject s.objects

theorem mem_keys_putObject (objects : List (Ref × Object)) :
    r ∈ (putObject target o objects).map Prod.fst ↔ r = target ∨ r ∈ objects.map Prod.fst := by
  induction objects with
  | nil => simp [putObject]
  | cons p objects ih =>
    obtain ⟨k, x⟩ := p
    rw [putObject]
    by_cases hk : target = k
    · simp [hk]
    · rw [if_neg hk, List.map_cons, List.mem_cons, ih, List.map_cons, List.mem_cons]
      exact or_left_comm

theorem nodup_keys_putObject {objects : List (Ref × Object)} (h : (objects.map Prod.fst).Nodup) :
    ((putObject target o objects).map Prod.fst).Nodup := by
  induction objects with
  | nil => simp [putObject]
  | cons p objects ih =>
    obtain ⟨k, x⟩ := p
    rw [List.map_cons, List.nodup_cons] at h
    rw [putObject]
    by_cases hk : target = k
    · subst hk
      simpa using h
    · rw [if_neg hk, List.map_cons, List.nodup_cons, mem_keys_putObject, not_or]
      exact ⟨⟨Ne.symm hk, h.1⟩, ih h.2⟩

theorem nodup_keys_define (h : (s.objects.map Prod.fst).Nodup) :
    ((s.define definitions).objects.map Prod.fst).Nodup := by
  induction definitions generalizing s with
  | nil => exact h
  | cons p definitions ih => exact ih (nodup_keys_putObject h)

theorem mem_keys_define :
    r ∈ (s.define definitions).objects.map Prod.fst ↔
      r ∈ s.objects.map Prod.fst ∨ r ∈ definitions.map Prod.fst := by
  induction definitions generalizing s with
  | nil => simp [define]
  | cons p definitions ih =>
    rw [define, List.foldl_cons, ← define, ih, put, mem_keys_putObject, List.map_cons, List.mem_cons]
    tauto

theorem get?_define : (s.define definitions).get? r =
    ((definitions.reverse.lookup r).map (Object.ownedBy (some r))).or (s.get? r) := by
  induction definitions generalizing s with
  | nil => simp [define]
  | cons p definitions ih =>
    obtain ⟨target, o⟩ := p
    -- the first definition counts only if no later one has its reference
    rw [define, List.foldl_cons, ← define, ih, List.reverse_cons, List.lookup_append, get?_put]
    by_cases hr : r = target
    · subst hr
      cases definitions.reverse.lookup r <;> simp
    · have hne : (r == target) = false := beq_eq_false_iff_ne.mpr hr
      simp [hr, hne, List.lookup_cons]

theorem ofBody_eq_define (hne : definitions ≠ []) (hd : ∀ p ∈ definitions, Definable p.2)
    (h : BodyText definitions text) : ofBody text = .ok (empty.define definitions) := by
  have hsome : (empty.define definitions).isEmpty = false := by
    rw [isEmpty, List.isEmpty_eq_false_iff]
    intro hnil
    obtain ⟨p, tail, rfl⟩ := List.exists_cons_of_ne_nil hne
    have hmem : p.1 ∈ (empty.define (p :: tail)).objects.map Prod.fst :=
      mem_keys_define.mpr (.inr (by simp))
    rw [hnil] at hmem
    exact List.not_mem_nil hmem
  rw [ofBody, scan_bodyText h hd (Nat.le_refl _)]
  simp [hsome]

/-- A body defines the references of its definitions and no others. Each stands for the last object that
is defined under it. -/
theorem ofBody_bodyText (hne : definitions ≠ []) (hd : ∀ p ∈ definitions, Definable p.2)
    (h : BodyText definitions text) :
    ∃ s, ofBody text = .ok s ∧ (s.objects.map Prod.fst).Nodup ∧
      (∀ r, r ∈ s.objects.map Prod.fst ↔ r ∈ definitions.map Prod.fst) ∧
      ∀ r, s.get? r = (definitions.reverse.lookup r).map (Object.ownedBy (some r)) := by
  refine ⟨empty.define definitions, ofBody_eq_define hne hd h, nodup_keys_define List.nodup_nil, ?_, ?_⟩
  · intro r
    rw [mem_keys_define]
    simp [empty]
  · intro r
    rw [get?_define]
    exact Option.or_none

/-- A stream, a string, and a dictionary under the reference of the stream. -/
def redefined : List (Ref × Object) :=
  [(⟨1, 0⟩, escapedStream), (⟨2, 0⟩, .str ⟨.literal [41], none⟩), (⟨1, 0⟩, .dict escapedDict)]

theorem ofBody_bodyText_redefined : BodyText redefined (printBody redefined) ∧
    ∃ s, ofBody (printBody redefined) = .ok s ∧
      s.get? ⟨1, 0⟩ = some (.dict (escapedDict.ownedBy (some ⟨1, 0⟩))) ∧
      s.get? ⟨2, 0⟩ = some (.str ⟨.literal [41], some ⟨2, 0⟩⟩) ∧ s.get? ⟨3, 0⟩ = none := by
  have hd : ∀ p ∈ redefined, Definable p.2 := by
    simp only [redefined, List.forall_mem_cons]
    exact ⟨definable_escapedStream, .direct (.literal _), .direct (printable_escapedDict _), by simp⟩
  obtain ⟨s, hs, -, -, hget⟩ := ofBody_bodyText (by simp [redefined]) hd (bodyText_printBody hd)
  refine ⟨bodyText_printBody hd, s, hs, ?_, ?_, ?_⟩
  · exact (hget ⟨1, 0⟩).trans (congrArg some (Object.ownedBy_dict escapedDict))
  · rw [hget]
    rfl
  · rw [hget]
    rfl

end Store

end Folio
