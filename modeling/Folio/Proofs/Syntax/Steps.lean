import Folio.Proofs.Syntax.Progress
import Folio.Proofs.Syntax.Space
import Folio.Syntax.Parser

/-!
# Steps of a parser

What a step of a parser does is told by the data that are left: it reads a value and ends before some rest of
them, or it fails (`Parser.Reads`). Steps in sequence pass these rests on (`Parser.At.bind`).
-/

namespace Folio.Syntax

variable {α β : Type} {data rest after text : Bytes}

/-! ## Cursors -/

namespace Cursor

variable {c : Cursor}

theorem rest_seek (h : rest <:+ c.rest) : (c.seek rest).rest = rest := by
  obtain ⟨text, heq⟩ := h
  have hlength : c.rest.length - rest.length = text.length := by
    rw [← heq, List.length_append, Nat.add_sub_cancel]
  show c.data.drop (c.offset + (c.rest.length - rest.length)) = rest
  rw [hlength, ← List.drop_drop, ← Cursor.rest, ← heq, List.drop_left]

theorem seek_rest (c : Cursor) : c.seek c.rest = c := by
  rw [seek, Nat.sub_self, Nat.add_zero]

theorem seek_seek (h : rest <:+ c.rest) (hafter : after <:+ rest) : (c.seek rest).seek after = c.seek after := by
  have hlength := h.length_le
  have hshorter := hafter.length_le
  rw [seek, rest_seek h, seek, seek]
  congr 1
  dsimp only
  omega

/-- A text that the data go on with lies between two positions. -/
theorem seek_of_append (h : c.rest = text ++ rest) : c.seek rest = c.jump (c.offset + text.length) := by
  rw [seek, h, List.length_append, Nat.add_sub_cancel]
  rfl

theorem seek_of_cons {b : UInt8} (h : c.rest = b :: rest) : c.seek rest = c.jump (c.offset + 1) :=
  @seek_of_append rest [b] c h

end Cursor

namespace Parser

open Parse

variable {p q : Parser} {m m' : Parse α} {k : α → Parse β} {a : α} {r : Option (β × Bytes)}

/-! ## Results of steps -/

/-- The parser at another position. -/
def jump (p : Parser) (offset : Nat) : Parser := { p with cursor := p.cursor.jump offset }

/-- The parser at the start of `rest`, an end of the data that are left. -/
def seek (p : Parser) (rest : Bytes) : Parser := { p with cursor := p.cursor.seek rest }

/-- Whether a step has a value and ends before some rest of the data, or fails anywhere. In both cases it changes
nothing but the position. -/
def Reads (p : Parser) (m : Parse α) : Option (α × Bytes) → Prop
  | some (a, rest) => rest <:+ p.cursor.rest ∧ m p = (some a, p.seek rest)
  | none => ∃ offset, m p = (none, p.jump offset)

/-- Whether the parser is at a position within its data, before some rest of them. -/
structure At (p : Parser) (data : Bytes) : Prop where
  offset_le : p.cursor.offset ≤ p.cursor.data.length
  rest_eq : p.cursor.rest = data

theorem At.seek (h : p.At data) (hrest : rest <:+ data) : (p.seek rest).At rest := by
  obtain ⟨hoffset, rfl⟩ := h
  refine ⟨?_, Cursor.rest_seek hrest⟩
  show p.cursor.offset + (p.cursor.rest.length - rest.length) ≤ p.cursor.data.length
  rw [Cursor.rest, List.length_drop]
  omega

theorem At.seek_self (h : p.At data) : p.seek data = p := by
  rw [← h.rest_eq, Parser.seek, Cursor.seek_rest]

theorem At.seek_seek (h : p.At data) (hrest : rest <:+ data) (hafter : after <:+ rest) :
    (p.seek rest).seek after = p.seek after := by
  rw [Parser.seek, Parser.seek, Cursor.seek_seek (h.rest_eq ▸ hrest) hafter, Parser.seek]

theorem Reads.suffix {read : Option (α × Bytes)} (h : p.Reads m read) (hat : p.At data) :
    ∀ a rest, read = some (a, rest) → rest <:+ data := by
  rintro a rest rfl
  exact hat.rest_eq ▸ h.1

theorem Reads.fst_eq {read : Option (α × Bytes)} (h : p.Reads m read) : (m p).1 = read.map (·.1) := by
  cases read with
  | none =>
    obtain ⟨_, h⟩ := h
    rw [h]
    rfl
  | some read =>
    rw [h.2]
    rfl

theorem Reads.of_eq {r : Option (α × Bytes)} (h : m p = m' p) (hm : p.Reads m' r) : p.Reads m r := by
  cases r with
  | none =>
    obtain ⟨offset, hm⟩ := hm
    exact ⟨offset, h.trans hm⟩
  | some read => exact ⟨hm.1, h.trans hm.2⟩

theorem At.reads_none (h : m p = (none, p)) : p.Reads m none := ⟨p.cursor.offset, h⟩

theorem At.reads_self (h : p.At data) (hm : m p = (some a, p)) : p.Reads m (some (a, data)) := by
  refine ⟨h.rest_eq ▸ List.suffix_refl _, ?_⟩
  rw [h.seek_self, hm]

theorem At.reads_pure (h : p.At data) (a : α) : p.Reads (pure a) (some (a, data)) := h.reads_self rfl

theorem reads_failure (p : Parser) : p.Reads (failure : Parse α) none := ⟨p.cursor.offset, rfl⟩

/-! ## Steps in sequence -/

theorem run_bind_some (h : m p = (some a, q)) : (m >>= k) p = k a q := by
  show (OptionT.bind m k) p = _
  simp only [OptionT.bind, OptionT.mk, bind, StateT.bind, h]

theorem run_bind_none (h : m p = (none, q)) : (m >>= k) p = (none, q) := by
  show (OptionT.bind m k) p = _
  simp only [OptionT.bind, OptionT.mk, bind, StateT.bind, h]
  rfl

/-- A step that only looks hands what it sees to the next one. -/
theorem reads_bind_of_self (hm : m p = (some a, p)) (hk : p.Reads (k a) r) : p.Reads (m >>= k) r :=
  have hrun : (m >>= k) p = k a p := run_bind_some hm
  .of_eq hrun hk

theorem At.bind_some (h : p.At data) (hm : p.Reads m (some (a, rest)))
    (hk : (p.seek rest).At rest → (p.seek rest).Reads (k a) r) : p.Reads (m >>= k) r := by
  have hrest := hm.suffix h _ _ rfl
  have hk := hk (h.seek hrest)
  obtain ⟨-, hm⟩ := hm
  cases r with
  | none =>
    obtain ⟨offset, hk⟩ := hk
    exact ⟨offset, (run_bind_some hm).trans hk⟩
  | some read =>
    have hafter : read.2 <:+ rest := hk.suffix (h.seek hrest) _ _ rfl
    refine ⟨h.rest_eq ▸ hafter.trans hrest, (run_bind_some hm).trans (hk.2.trans ?_)⟩
    rw [h.seek_seek hrest hafter]

theorem Reads.bind_none (h : p.Reads m none) : p.Reads (m >>= k) none := by
  obtain ⟨offset, h⟩ := h
  exact ⟨offset, run_bind_none h⟩

/-- A step and what it hands its value to read what their readings read. -/
theorem At.bind (h : p.At data) {read : Option (α × Bytes)} {f : α × Bytes → Option (β × Bytes)}
    (hm : p.Reads m read)
    (hk : ∀ a rest, read = some (a, rest) → (p.seek rest).At rest → (p.seek rest).Reads (k a) (f (a, rest))) :
    p.Reads (m >>= k) (read.bind f) := by
  cases read with
  | none => exact hm.bind_none
  | some read => exact h.bind_some hm (hk read.1 read.2 rfl)

/-- A step that only moves on is followed by another one. -/
theorem At.bind_drop (h : p.At data) {m : Parse Unit} {k : Unit → Parse β} {drop : Option Bytes}
    {f : Bytes → Option (β × Bytes)} (hm : p.Reads m (drop.map ((), ·)))
    (hk : ∀ rest, drop = some rest → (p.seek rest).At rest → (p.seek rest).Reads (k ()) (f rest)) :
    p.Reads (m >>= k) (drop.bind f) := by
  cases drop with
  | none => exact hm.bind_none
  | some rest => exact h.bind_some hm (hk rest rfl)

theorem At.map (h : p.At data) {read : Option (α × Bytes)} (hm : p.Reads m read) (f : α → β) :
    p.Reads (f <$> m) (read.map fun (a, rest) => (f a, rest)) := by
  cases read with
  | none => exact hm.bind_none
  | some read => exact h.bind_some hm fun hat => hat.reads_pure (f read.1)

/-- Where the first way fails at once, the second is taken. -/
theorem orElse_none (h : m p = (none, p)) : (m <|> m') p = m' p := by
  show (OptionT.orElse m fun _ => m') p = _
  simp only [OptionT.orElse, OptionT.mk, bind, StateT.bind, h]

theorem orElse_some (h : m p = (some a, q)) : (m <|> m') p = (some a, q) := by
  show (OptionT.orElse m fun _ => m') p = _
  simp only [OptionT.orElse, OptionT.mk, bind, StateT.bind, h]
  rfl

/-- A second way is taken from where the first one began, if that one fails without moving. -/
theorem Reads.orElse {read read' : Option (α × Bytes)} (hm : p.Reads m read) (hnone : read = none → m p = (none, p))
    (hm' : p.Reads m' read') : p.Reads (m <|> m') (read.or read') := by
  cases read with
  | none => exact .of_eq (orElse_none (hnone rfl)) hm'
  | some read => exact .of_eq ((orElse_some hm.2).trans hm.2.symm) hm

theorem Reads.restoring {read : Option (α × Bytes)} (h : p.Reads m read) : p.Reads (restoring m) read := by
  cases read with
  | none =>
    obtain ⟨offset, h⟩ := h
    exact At.reads_none (by simp only [Parse.restoring, h]; rfl)
  | some read => exact ⟨h.1, by simp only [Parse.restoring, h.2]⟩

/-- A step that goes back when it fails leaves the parser as it was. -/
theorem Reads.restoring_eq_none (h : p.Reads (Parse.restoring m) none) : Parse.restoring m p = (none, p) := by
  obtain ⟨offset, h⟩ := h
  have hoffset : offset = p.cursor.offset := by
    have hcursor := congrArg (fun result => result.2.cursor.offset) h
    unfold Parse.restoring at h hcursor
    split at h
    · cases h
    · rename_i q hm
      rw [hm] at hcursor
      exact hcursor.symm
  rw [h, hoffset]
  rfl

theorem At.deeper (h : p.At data) : At { p with depth := p.depth + 1 } data := ⟨h.offset_le, h.rest_eq⟩

theorem Reads.nested {read : Option (α × Bytes)} (h : Reads { p with depth := p.depth + 1 } m read) :
    p.Reads (nested m) read := by
  cases read with
  | none =>
    obtain ⟨offset, h⟩ := h
    exact ⟨offset, by simp only [Parse.nested, h]; rfl⟩
  | some read => exact ⟨h.1, by simp only [Parse.nested, h.2]; rfl⟩

theorem At.ownedBy (h : p.At data) (owner : Ref) : At { p with owner := some owner } data := ⟨h.offset_le, h.rest_eq⟩

theorem Reads.owning {read : Option (α × Bytes)} {owner : Ref} (hp : p.owner = none)
    (h : Reads { p with owner := some owner } m read) : p.Reads (owning owner m) read := by
  obtain ⟨⟨_, inContent⟩, cursor, depth⟩ := p
  cases hp
  cases read with
  | none =>
    obtain ⟨offset, h⟩ := h
    exact ⟨offset, by simp only [Parse.owning, h]; rfl⟩
  | some read => exact ⟨h.1, by simp only [Parse.owning, h.2]; rfl⟩

/-! ## Moving the cursor -/

/-- What is taken off the cursor is read, if the cursor goes on to the rest. -/
theorem At.reads_take? (h : p.At data) {take : Cursor → Option (α × Cursor)} {read : Option (α × Bytes)}
    (hread : take p.cursor = read.map fun (a, rest) => (a, p.cursor.seek rest))
    (hrest : ∀ a rest, read = some (a, rest) → rest <:+ data) : p.Reads (take? take) read := by
  cases read with
  | none => exact At.reads_none (by simp only [take?, hread, Option.map_none])
  | some read =>
    refine ⟨h.rest_eq ▸ hrest read.1 read.2 rfl, ?_⟩
    simp only [take?, hread, Option.map_some]
    rfl

theorem At.reads_move? (h : p.At data) {step : Cursor → Option Cursor} {drop : Option Bytes}
    (hdrop : step p.cursor = drop.map p.cursor.seek) (hrest : ∀ rest, drop = some rest → rest <:+ data) :
    p.Reads (move? step) (drop.map ((), ·)) := by
  apply h.reads_take?
  · rw [hdrop, Option.map_map, Option.map_map]
    rfl
  · intro _ rest hread
    obtain ⟨_, hread, heq⟩ := Option.map_eq_some_iff.mp hread
    cases heq
    exact hrest rest hread

theorem take?_eq_none {take : Cursor → Option (α × Cursor)} (h : take p.cursor = none) :
    take? take p = (none, p) := by
  simp only [take?, h]

theorem move?_eq_none {step : Cursor → Option Cursor} (h : step p.cursor = none) : move? step p = (none, p) :=
  take?_eq_none (by rw [h, Option.map_none])

/-- Looking changes nothing. -/
theorem see?_eq (look : Cursor → Option α) : see? look p = (look p.cursor, p) := by
  simp only [see?, take?]
  cases look p.cursor <;> rfl

theorem At.reads_move (h : p.At data) {step : Cursor → Cursor} (hstep : step p.cursor = p.cursor.seek rest)
    (hrest : rest <:+ data) : p.Reads (move step) (some ((), rest)) := by
  apply h.reads_take?
  · rw [hstep]
    rfl
  · rintro _ _ ⟨⟩
    exact hrest

theorem At.reads_skipSpace (h : p.At data) : p.Reads (move (·.skipSpace)) (some ((), skipSpace data)) :=
  h.reads_move (by rw [Cursor.skipSpace, h.rest_eq]) (skipSpace_suffix data)

theorem At.reads_skipEndOfLine (h : p.At data) :
    p.Reads (move (·.skipEndOfLine)) (some ((), skipEndOfLine data)) :=
  h.reads_move (by rw [Cursor.skipEndOfLine, h.rest_eq]) (skipEndOfLine_suffix data)

theorem At.reads_dropWhile (h : p.At data) (inClass : UInt8 → Bool) :
    p.Reads (move (·.dropWhile inClass)) (some ((), data.dropWhile inClass)) :=
  h.reads_move (by rw [Cursor.dropWhile, h.rest_eq]) (List.dropWhile_suffix inClass)

theorem At.length_eq (h : p.At data) : p.cursor.data.length = p.cursor.offset + data.length := by
  have hoffset := h.offset_le
  have hrest := congrArg List.length h.rest_eq
  rw [Cursor.rest, List.length_drop] at hrest
  omega

theorem At.slice?_eq (h : p.At (text ++ rest)) :
    p.cursor.data.slice? p.cursor.offset (p.cursor.offset + text.length) = some text := by
  have hlength : p.cursor.offset + text.length ≤ p.cursor.data.length := by
    rw [h.length_eq, List.length_append]
    omega
  rw [Bytes.slice?, if_pos ⟨Nat.le_add_right _ _, hlength⟩, Nat.add_sub_cancel_left, ← Cursor.rest, h.rest_eq,
    List.take_left]

/-- The text from a position that the parser has gone on from. -/
theorem At.textFrom_eq (h : p.At data) (hdata : text ++ rest = data) :
    textFrom p.cursor.offset (p.seek rest) = (some text, p.seek rest) := by
  subst hdata
  have hoffset : (p.seek rest).cursor.offset = p.cursor.offset + text.length := by
    rw [Parser.seek, Cursor.seek_of_append h.rest_eq, Cursor.jump]
  have hslice : (p.seek rest).cursor.data.slice? p.cursor.offset (p.seek rest).cursor.offset = some text := by
    rw [hoffset]
    exact h.slice?_eq
  rw [textFrom, see?_eq, hslice]

theorem At.reads_byte {b : UInt8} (h : p.At (b :: rest)) : p.Reads (take? (·.readByte?)) (some (b, rest)) := by
  have hbyte : p.cursor.readByte? = some (b, p.cursor.seek rest) := by
    rw [Cursor.seek_of_cons h.rest_eq, Cursor.readByte?, Cursor.peekByte?, h.rest_eq]
    rfl
  refine h.reads_take? hbyte ?_
  rintro _ _ ⟨⟩
  exact List.suffix_cons b rest

theorem At.reads_byte_nil (h : p.At []) : p.Reads (take? (·.readByte?)) none := by
  have hbyte : p.cursor.readByte? = none := by
    rw [Cursor.readByte?, Cursor.peekByte?, h.rest_eq]
    rfl
  exact At.reads_none (take?_eq_none hbyte)

theorem At.dropTag?_eq (h : p.At data) (tag : Bytes) :
    p.cursor.dropTag? tag = (Bytes.dropTag? tag data).map p.cursor.seek := by
  cases hdrop : Bytes.dropTag? tag data with
  | some rest =>
    have happend := Bytes.dropTag?_eq_some.mp hdrop
    subst happend
    rw [Cursor.dropTag?, Cursor.peek?, if_pos h.slice?_eq, Option.map_some, Cursor.seek_of_append h.rest_eq]
  | none =>
    rw [Cursor.dropTag?, if_neg, Option.map_none]
    intro hpeek
    obtain ⟨-, htake⟩ := Option.ite_some_none_eq_some.mp hpeek
    rw [Nat.add_sub_cancel_left, ← Cursor.rest, h.rest_eq] at htake
    have happend : Bytes.dropTag? tag data = some (data.drop tag.length) := by
      rw [Bytes.dropTag?_eq_some]
      calc data = data.take tag.length ++ data.drop tag.length := (List.take_append_drop _ _).symm
        _ = tag ++ data.drop tag.length := by rw [htake]
    simp [hdrop] at happend

theorem At.reads_tag (h : p.At data) (bytes : Bytes) :
    p.Reads (tag bytes) ((Bytes.dropTag? bytes data).map ((), ·)) :=
  h.reads_move? (h.dropTag?_eq bytes) fun _ hdrop => ⟨bytes, (Bytes.dropTag?_eq_some.mp hdrop).symm⟩

theorem At.tag_eq_none (h : p.At data) {bytes : Bytes} (hdrop : Bytes.dropTag? bytes data = none) :
    tag bytes p = (none, p) :=
  move?_eq_none (by rw [h.dropTag?_eq, hdrop, Option.map_none])

theorem At.succeeds_tag_eq_false (h : p.At data) {bytes : Bytes} (hdrop : Bytes.dropTag? bytes data = none) :
    Parse.succeeds (tag bytes) p = (some false, p) := by
  simp only [Parse.succeeds, h.tag_eq_none hdrop]
  rfl

/-- Whether something can be taken off the cursor; if so, the parser goes on after it. -/
theorem At.reads_succeeds (h : p.At data) {read : Option (α × Bytes)} (hread : p.Reads m read)
    (hnone : read = none → m p = (none, p)) :
    p.Reads (Parse.succeeds m) (some (read.isSome, (read.map (·.2)).getD data)) := by
  cases read with
  | some read => exact ⟨hread.1, by simp only [Parse.succeeds, hread.2]; rfl⟩
  | none => exact h.reads_self (by simp only [Parse.succeeds, hnone rfl]; rfl)

/-- Whether a tag comes next; if it does, the parser goes on after it. -/
theorem At.reads_succeeds_tag (h : p.At data) (bytes : Bytes) :
    p.Reads (Parse.succeeds (tag bytes))
      (some ((Bytes.dropTag? bytes data).isSome, (Bytes.dropTag? bytes data).getD data)) := by
  have htag := h.reads_succeeds (h.reads_tag bytes) fun hdrop => h.tag_eq_none (Option.map_eq_none_iff.mp hdrop)
  rwa [Option.isSome_map, Option.map_map, Function.comp_def, Option.map_id'] at htag

/-- Which way is taken after looking for a tag depends on whether it is there. -/
theorem At.reads_if_tag (h : p.At data) {bytes : Bytes} {found missing : Parse β}
    (hfound : ∀ rest, data = bytes ++ rest → (p.seek rest).At rest → (p.seek rest).Reads found r)
    (hmissing : Bytes.dropTag? bytes data = none → p.Reads missing r) :
    p.Reads (Parse.succeeds (tag bytes) >>= fun isThere => if isThere then found else missing) r := by
  have htag := h.reads_succeeds_tag bytes
  cases hdrop : Bytes.dropTag? bytes data with
  | some rest =>
    rw [hdrop] at htag
    exact h.bind_some htag (hfound rest (Bytes.dropTag?_eq_some.mp hdrop))
  | none => exact reads_bind_of_self (h.succeeds_tag_eq_false hdrop) (hmissing hdrop)

theorem reads_offset_bind {k : Nat → Parse β} (hk : p.Reads (k p.cursor.offset) r) : p.Reads (offset >>= k) r :=
  reads_bind_of_self rfl hk

theorem At.reads_remaining_bind (h : p.At data) {k : Nat → Parse β} (hk : p.Reads (k data.length) r) :
    p.Reads (remaining >>= k) r :=
  reads_bind_of_self (by rw [remaining, see?_eq, h.rest_eq]) hk

theorem At.reads_peek_bind (h : p.At data) {k : Option UInt8 → Parse β} (hk : p.Reads (k data.head?) r) :
    p.Reads (see? (some ·.peekByte?) >>= k) r :=
  reads_bind_of_self (by rw [see?_eq, Cursor.peekByte?, h.rest_eq]) hk

theorem succeeds_see?_eq (look : Cursor → Option α) :
    Parse.succeeds (see? look) p = (some (look p.cursor).isSome, p) := by
  simp only [Parse.succeeds, see?_eq]

theorem At.reads_see? (h : p.At data) (value : Option α) :
    p.Reads (see? fun _ => value) (value.map (·, data)) := by
  cases value with
  | none => exact At.reads_none rfl
  | some a => exact h.reads_self rfl

/-- A value that does not depend on the position. -/
theorem reads_see?_bind {k : α → Parse β} (value : Option α) {f : α → Option (β × Bytes)}
    (hk : ∀ a, value = some a → p.Reads (k a) (f a)) : p.Reads (see? (fun _ => value) >>= k) (value.bind f) := by
  cases value with
  | none => exact Reads.bind_none (At.reads_none rfl)
  | some a => exact reads_bind_of_self rfl (hk a rfl)

theorem At.offset_seek (h : p.At data) (rest : Bytes) :
    (p.seek rest).cursor.offset = p.cursor.offset + (data.length - rest.length) := by
  rw [← h.rest_eq]
  rfl

theorem dropBlanks?_eq_none (h : dropBlanks? data = none) : data.dropWhile isWhiteSpace = data := by
  cases data with
  | nil => rfl
  | cons b data =>
    rw [dropBlanks?] at h
    split at h
    · cases h
    · rename_i hb
      exact List.dropWhile_cons_of_neg hb

/-- White space comes next, at least one character of it. -/
theorem At.reads_blanks (h : p.At data) :
    p.Reads (someOf isWhiteSpace) ((dropBlanks? data).map ((), ·)) := by
  refine reads_offset_bind (h.bind_some (h.reads_dropWhile isWhiteSpace) fun hat => reads_offset_bind ?_)
  rw [h.offset_seek]
  cases hblanks : dropBlanks? data with
  | none =>
    rw [dropBlanks?_eq_none hblanks, Nat.sub_self, Nat.add_zero, if_neg (Nat.lt_irrefl _)]
    exact reads_failure _
  | some rest =>
    have hlt := length_lt_of_dropBlanks? hblanks
    rw [← dropBlanks?_eq_some hblanks, if_pos (by omega)]
    exact At.reads_pure (dropBlanks?_eq_some hblanks ▸ hat) ()

end Parser

end Folio.Syntax
