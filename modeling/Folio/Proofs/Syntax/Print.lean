import Folio.Proofs.Object.Ownership
import Folio.Proofs.Syntax.Numeral
import Folio.Proofs.Syntax.Token

/-!
# Writing objects

`Written o text` says that `text` is a way to write an object: names and literal strings may be escaped in
several ways, any white space separates the items of a container, and the entries of a dictionary come in
any order. `print o` is one such text. `Printable` objects are those that can be read back.
-/

namespace Folio.Syntax

variable {o : Object} {d : Dict} {text : Bytes} {levels : Nat}

/-- Texts one after the other, with white space between them and perhaps at the end. -/
inductive Spaced : List Bytes → Bytes → Prop
  | nil : Spaced [] []
  | cons {text blank rest : Bytes} {texts : List Bytes} :
    IsBlank blank → (blank = [] → texts = []) → Spaced texts rest →
      Spaced (text :: texts) (text ++ (blank ++ rest))

/-- Texts one after the other, each with white space after it. -/
inductive Terminated : List Bytes → Bytes → Prop
  | nil : Terminated [] []
  | cons {text blank rest : Bytes} {texts : List Bytes} :
    IsBlank blank → blank ≠ [] → Terminated texts rest →
      Terminated (text :: texts) (text ++ (blank ++ rest))

theorem Terminated.spaced {texts : List Bytes} (h : Terminated texts text) : Spaced texts text := by
  induction h with
  | nil => exact .nil
  | cons hblank hne _ ih => exact .cons hblank (absurd · hne) ih

theorem Terminated.length_le {texts : List Bytes} (h : Terminated texts text) :
    texts.length ≤ text.length := by
  induction h with
  | nil => exact Nat.le_refl _
  | cons _ hne _ ih =>
    have hpos := List.length_pos_iff.mpr hne
    simp only [List.length_cons, List.length_append]
    omega

/-- The parts of an entry's text. -/
structure EntryText where
  key : Name
  value : Object
  token : Bytes
  blank : Bytes
  /-- The text of the value. -/
  text : Bytes
  token_spells : NameText key.bytes token
  blank_isBlank : IsBlank blank
  blank_ne_nil : blank ≠ []

namespace EntryText

def entry (e : EntryText) : Name × Object := (e.key, e.value)

def code (e : EntryText) : Bytes := 47 :: (e.token ++ (e.blank ++ e.text))

end EntryText

/-- The texts of an object that is no stream. -/
inductive Written : Object → Bytes → Prop
  | null : Written .null (.ofAscii "null")
  | bool (b : Bool) : Written (.bool b) (.ofAscii (if b then "true" else "false"))
  | integer (i : Int64) : Written (.number (.integer i)) (integerText i.toInt)
  | literal {bytes text : Bytes} :
    LiteralText bytes text → Written (.str ⟨.literal bytes, none⟩) (40 :: (text ++ [41]))
  | hex (digits : Bytes) : Written (.str ⟨.hex digits, none⟩) (60 :: (digits ++ [62]))
  | name {name : Name} {token : Bytes} : NameText name.bytes token → Written (.name name) (47 :: token)
  | ref (target : Ref) : Written (.ref target) (.ofAscii target.text)
  -- the items come with their texts
  | array {items : List (Object × Bytes)} {blank text : Bytes} :
    (∀ p ∈ items, Written p.1 p.2) → IsBlank blank → Spaced (items.map Prod.snd) text →
      Written (.array (items.map Prod.fst)) (91 :: (blank ++ (text ++ [93])))
  | dict {d : Dict} {entries : List EntryText} {blank text : Bytes} :
    (∀ e ∈ entries, Written e.value e.text) → (entries.map EntryText.entry).Perm d.entries →
      IsBlank blank → Spaced (entries.map EntryText.code) text →
      Written (.dict d) (60 :: 60 :: (blank ++ (text ++ [62, 62])))

/-- The texts of an object that is not nested inside others. It may be a stream. -/
inductive WrittenWhole : Object → Bytes → Prop
  | direct {o : Object} {text : Bytes} : Written o text → WrittenWhole o text
  | stream {d : Dict} {text blank data : Bytes} :
    Written (.dict d) text → IsBlank blank →
      WrittenWhole (.stream ⟨d, data, none⟩) (text ++ (blank ++
        (Bytes.ofAscii "stream" ++ 10 :: (data ++ 10 :: Bytes.ofAscii "endstream"))))

/-- Whether an object is made of fewer than `levels` containers inside each other, has no real numbers,
null entries, streams or owners, and each dictionary in it has its keys in order. -/
inductive Printable : Nat → Object → Prop
  | null {n : Nat} : Printable (n + 1) .null
  | bool {n : Nat} (b : Bool) : Printable (n + 1) (.bool b)
  | integer {n : Nat} (i : Int64) : Printable (n + 1) (.number (.integer i))
  | literal {n : Nat} (bytes : Bytes) : Printable (n + 1) (.str ⟨.literal bytes, none⟩)
  | hex {n : Nat} {digits : Bytes} :
    (∀ b ∈ digits, isHexDigit b = true) → Printable (n + 1) (.str ⟨.hex digits, none⟩)
  | name {n : Nat} (name : Name) : Printable (n + 1) (.name name)
  | ref {n : Nat} (target : Ref) : Printable (n + 1) (.ref target)
  | array {n : Nat} {items : List Object} :
    (∀ o ∈ items, Printable n o) → Printable (n + 1) (.array items)
  | dict {n : Nat} {d : Dict} :
    Dict.Increasing d.entries → (∀ p ∈ d.entries, p.2.isNull = false) → (∀ p ∈ d.entries, Printable n p.2) →
      Printable (n + 1) (.dict d)

/-- Whether a reference occurs in an object. -/
inductive HoldsRef : Object → Prop
  | ref (target : Ref) : HoldsRef (.ref target)
  | item {o : Object} {items : List Object} : o ∈ items → HoldsRef o → HoldsRef (.array items)
  | value {p : Name × Object} {d : Dict} : p ∈ d.entries → HoldsRef p.2 → HoldsRef (.dict d)

/-- Whether an object is read back from its texts: it is printable, or a stream that states its length. -/
inductive Definable : Object → Prop
  | direct {o : Object} : Printable (maxNesting + 1) o → Definable o
  | stream {d : Dict} {data : Bytes} {length : Int64} :
    Printable (maxNesting + 1) (.dict d) → d.get? "Length" = some (.ofInt length) →
      length.toInt = data.length → Definable (.stream ⟨d, data, none⟩)

mutual

/-- A text of an object. A real number has none. -/
def print : Object → Bytes
  | .null => .ofAscii "null"
  | .bool b => .ofAscii (if b then "true" else "false")
  | .number (.integer i) => integerText i.toInt
  | .number (.real _) => []
  | .str ⟨.literal bytes, _⟩ => 40 :: (escapeLiteral bytes ++ [41])
  | .str ⟨.hex digits, _⟩ => 60 :: (digits ++ [62])
  | .name n => 47 :: escapeName n.bytes
  | .ref target => .ofAscii target.text
  | .array items => 91 :: (printItems items ++ [93])
  | .dict ⟨entries⟩ => 60 :: 60 :: (printEntries entries ++ [62, 62])
  | .stream ⟨⟨entries⟩, data, _⟩ =>
    (60 :: 60 :: (printEntries entries ++ [62, 62])) ++
      (Bytes.ofAscii "stream" ++ 10 :: (data ++ 10 :: Bytes.ofAscii "endstream"))

/-- The items of an array, a space after each. -/
def printItems : List Object → Bytes
  | [] => []
  | x :: xs => print x ++ 32 :: printItems xs

/-- The entries of a dictionary, a space after each key and each value. -/
def printEntries : List (Name × Object) → Bytes
  | [] => []
  | (k, x) :: xs => 47 :: (escapeName k.bytes ++ 32 :: print x) ++ 32 :: printEntries xs

end

theorem terminated_printItems (items : List Object) :
    Terminated (items.map print) (printItems items) := by
  induction items with
  | nil => exact .nil
  | cons x xs ih =>
    rw [List.map_cons, printItems]
    exact .cons isBlank_space (List.cons_ne_nil _ _) ih

/-- The text of an entry with single spaces. -/
def entryText (p : Name × Object) : EntryText where
  key := p.1
  value := p.2
  token := escapeName p.1.bytes
  blank := [32]
  text := print p.2
  token_spells := nameText_escapeName p.1.bytes
  blank_isBlank := isBlank_space
  blank_ne_nil := List.cons_ne_nil _ _

theorem terminated_printEntries (entries : List (Name × Object)) :
    Terminated ((entries.map entryText).map EntryText.code) (printEntries entries) := by
  induction entries with
  | nil => exact .nil
  | cons p entries ih =>
    obtain ⟨k, x⟩ := p
    rw [List.map_cons, List.map_cons, printEntries]
    exact .cons isBlank_space (List.cons_ne_nil _ _) ih

theorem perm_entryText (entries : List (Name × Object)) :
    ((entries.map entryText).map EntryText.entry).Perm entries := by
  simp [Function.comp_def, entryText, EntryText.entry]

theorem written_entryText {entries : List (Name × Object)}
    (h : ∀ p ∈ entries, Written p.2 (print p.2)) :
    ∀ e ∈ entries.map entryText, Written e.value e.text := by
  intro e he
  obtain ⟨p, hp, rfl⟩ := List.mem_map.mp he
  exact h p hp

/-- Values that are related to their images come in pairs with them. -/
theorem exists_pairs {α β : Type} {R : α → β → Prop} {f : α → β} {xs : List α}
    (h : ∀ x ∈ xs, R x (f x)) :
    ∃ pairs : List (α × β), pairs.map Prod.fst = xs ∧ pairs.map Prod.snd = xs.map f ∧
      ∀ p ∈ pairs, R p.1 p.2 := by
  refine ⟨xs.map fun x => (x, f x), by simp [Function.comp_def], by simp [Function.comp_def], ?_⟩
  intro p hp
  obtain ⟨x, hx, rfl⟩ := List.mem_map.mp hp
  exact h x hx

theorem written_print_array {items : List Object} (h : ∀ o ∈ items, Written o (print o)) :
    Written (.array items) (print (.array items)) := by
  rw [print]
  obtain ⟨parts, rfl, htexts, hwritten⟩ := exists_pairs h
  exact .array hwritten isBlank_nil (htexts ▸ (terminated_printItems _).spaced)

theorem written_print_dict (h : ∀ p ∈ d.entries, Written p.2 (print p.2)) :
    Written (.dict d) (print (.dict d)) := by
  obtain ⟨entries⟩ := d
  rw [print]
  exact .dict (written_entryText h) (perm_entryText entries) isBlank_nil
    (terminated_printEntries entries).spaced

theorem written_print (h : Printable levels o) : Written o (print o) := by
  induction h with
  | null => rw [print]; exact .null
  | bool b => rw [print]; exact .bool b
  | integer i => rw [print]; exact .integer i
  | literal bytes => rw [print]; exact .literal (literalText_escapeLiteral bytes)
  | hex _ => rw [print]; exact .hex _
  | name name => rw [print]; exact .name (nameText_escapeName name.bytes)
  | ref target => rw [print]; exact .ref target
  | array _ ih => exact written_print_array ih
  | dict _ _ _ ih => exact written_print_dict ih

theorem writtenWhole_print (h : Definable o) : WrittenWhole o (print o) := by
  cases h with
  | direct h => exact .direct (written_print h)
  | @stream d data length h _ _ =>
    obtain ⟨entries⟩ := d
    have hprint : print (.stream ⟨⟨entries⟩, data, none⟩) = print (.dict ⟨entries⟩) ++ ([] ++
        (Bytes.ofAscii "stream" ++ 10 :: (data ++ 10 :: Bytes.ofAscii "endstream"))) := by
      rw [print, print, List.nil_append]
    rw [hprint]
    exact .stream (written_print h) isBlank_nil

end Folio.Syntax
