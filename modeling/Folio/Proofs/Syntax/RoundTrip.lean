import Folio.Proofs.Bytes
import Folio.Proofs.Syntax.Follow

/-!
# Reading what was written

Main statement: `parse_print`, an object is read back from each of its texts, after any space and
before anything that does not continue it. The induction is on the number of levels that may still be
opened; `readItems?_spaced` and `readEntries?_spaced` carry it through the items of a container.
-/

namespace Folio

theorem Ref.ofInts?_toInt (target : Ref) :
    Ref.ofInts? target.number.toInt target.generation.toInt = some target := by
  have hfits : ∀ n : Int32, -2147483648 ≤ n.toInt ∧ n.toInt ≤ 2147483647 :=
    fun n => ⟨n.le_toInt, Int.le_of_lt_add_one n.toInt_lt⟩
  simp only [Ref.ofInts?, hfits, decide_true, Bool.and_self, if_true, Int32.ofInt_toInt]

namespace Syntax

variable {o : Object} {d : Dict} {blank data text rest : Bytes} {owner : Option Ref} {levels fuel : Nat}
variable {mode : Mode} {inContent : Bool} {read : Bytes → Option (Object × Bytes)} {value : Object → Object}

theorem readNested?_spacing (h : Spacing blank) (data : Bytes) :
    readNested? mode levels (blank ++ data) = readNested? mode levels data := by
  cases levels with
  | zero => rfl
  | succ levels => rw [readNested?, readNested?, h.skipSpace_append]

theorem own_none (body : Str.Body) : (Mode.mk owner inContent).own ⟨body, none⟩ = ⟨body, owner⟩ := by
  cases owner <;> rfl

/-! ## Numbers and references -/

theorem readReference?_integer (i : Int64) (hrest : Ends rest) :
    readReference? (integerText i.toInt ++ rest) = none := by
  simp only [readReference?, readInteger?_append i hrest.word, Option.bind_eq_bind, Option.bind_some]
  cases hblanks : dropBlanks? rest with
  | none => rfl
  | some data =>
    rw [Option.bind_some]
    cases hread : readInteger? data with
    | none => rfl
    | some p =>
      obtain ⟨j, after⟩ := p
      rw [Option.bind_some]
      cases hletter : dropBlanks? after with
      | none => rfl
      | some data =>
        have hne := hrest.generation _ _ _ hblanks hread
        rw [nextByte?, ← dropBlanks?_eq_some hletter] at hne
        rw [Option.bind_some]
        split
        · exact absurd rfl hne
        · rfl

theorem dropBlanks?_integerText (i : Int) (rest : Bytes) :
    dropBlanks? (32 :: (integerText i ++ rest)) = some (integerText i ++ rest) := by
  obtain ⟨b, tail, htext, hb⟩ := integerText_eq_cons i
  obtain ⟨hspace, -⟩ := opensObject_spec (opensObject_of_number hb)
  rw [htext]
  exact isBlank_space.dropBlanks?_append (List.cons_ne_nil _ _) hspace

theorem readReference?_append (target : Ref) (hrest : EndsWord rest) :
    readReference? (.ofAscii target.text ++ rest) = some (target, rest) := by
  have hspace : ∀ rest : Bytes, EndsWord (32 :: rest) := fun _ => endsWord_cons.mpr (by decide)
  have hletter : dropBlanks? (32 :: 82 :: rest) = some (82 :: rest) :=
    isBlank_space.dropBlanks?_append (List.cons_ne_nil _ _) (by decide)
  have hword : rest.head?.any isRegular = false := by
    cases rest with
    | nil => rfl
    | cons b rest => exact endsWord_cons.mp hrest
  rw [ofAscii_text]
  simp only [List.append_assoc, List.cons_append, List.nil_append, readReference?,
    readInteger?_int32 _ (hspace _), Option.bind_eq_bind, Option.bind_some, dropBlanks?_integerText,
    hletter, hword, Int32.toInt_toInt64, Ref.ofInts?_toInt]
  rfl

/-- What starts with a digit or a minus sign is a number or a reference. -/
theorem readNested?_number {b : UInt8} (hb : b = 45 ∨ isDigit b = true) (data : Bytes) :
    readNested? mode (levels + 1) (b :: data) = readNumeric? mode (b :: data) := by
  have hnumber : ∀ b : UInt8, b = 45 ∨ isDigit b = true → b ≠ 47 ∧ b ≠ 40 ∧ b ≠ 91 ∧ b ≠ 60 ∧
      (b = 43 || b = 45 || b = 46 || isDigit b) = true := by
    decide +kernel
  obtain ⟨hslash, hopen, harray, hangle, hstart⟩ := hnumber b hb
  rw [readNested?, skipSpace_opens (opensObject_of_number hb)]
  simp only [hslash, hopen, harray, hangle, hstart, if_true, if_false]

theorem readNested?_integer (i : Int64) (hrest : EndsIn inContent rest) :
    readNested? ⟨owner, inContent⟩ (levels + 1) (integerText i.toInt ++ rest) =
      some (.number (.integer i), rest) := by
  have hread : readNumeric? ⟨owner, inContent⟩ (integerText i.toInt ++ rest) =
      some (.number (.integer i), rest) := by
    cases inContent with
    | false =>
      simp [readNumeric?, readReference?_integer i (hrest.ends rfl), readNumber?_append i hrest.word]
    | true => simp [readNumeric?, readNumber?_append i hrest.word]
  obtain ⟨b, tail, htext, hb⟩ := integerText_eq_cons i.toInt
  rw [htext, List.cons_append] at hread ⊢
  rw [readNested?_number hb, hread]

theorem readNested?_ref (target : Ref) (hrest : Ends rest) :
    readNested? ⟨owner, false⟩ (levels + 1) (.ofAscii target.text ++ rest) =
      some (.ref target, rest) := by
  have hread : readNumeric? ⟨owner, false⟩ (.ofAscii target.text ++ rest) =
      some (.ref target, rest) := by
    simp [readNumeric?, readReference?_append target hrest.word]
  obtain ⟨b, tail, htext, hb⟩ := integerText_eq_cons target.number.toInt
  rw [ofAscii_text, htext, List.cons_append, List.cons_append] at hread ⊢
  rw [readNested?_number hb, hread]

/-! ## Names, strings and words -/

theorem readNested?_name {name : Name} {token : Bytes} (h : NameText name.bytes token)
    (hrest : EndsWord rest) :
    readNested? mode (levels + 1) (47 :: token ++ rest) = some (.name name, rest) := by
  rw [readNested?, List.cons_append, skipSpace_opens rfl]
  simp only [if_true, readName?_append h hrest, Option.map_some]

theorem readNested?_literal {bytes : Bytes} (h : LiteralText bytes text) (rest : Bytes) :
    readNested? ⟨owner, inContent⟩ (levels + 1) (40 :: (text ++ [41]) ++ rest) =
      some (.str ⟨.literal bytes, owner⟩, rest) := by
  rw [readNested?, List.cons_append, skipSpace_opens rfl]
  simp [h.spanLiteral?_append, h.ofEscaped_eq, own_none]

theorem readNested?_hex {digits : Bytes} (h : ∀ b ∈ digits, isHexDigit b = true) (rest : Bytes) :
    readNested? ⟨owner, inContent⟩ (levels + 1) (60 :: (digits ++ [62]) ++ rest) =
      some (.str ⟨.hex digits, owner⟩, rest) := by
  have hread := readHex?_append ⟨owner, inContent⟩ h rest
  have hangle : ∀ data, digits ++ 62 :: rest ≠ 60 :: data := by
    intro data heq
    cases digits with
    | nil => cases heq
    | cons b digits =>
      obtain rfl := (List.cons.inj heq).1
      exact absurd (h 60 (by simp)) (by decide)
  rw [readNested?, List.cons_append, skipSpace_opens rfl]
  simp only [List.append_assoc, List.cons_append, List.nil_append]
  rw [if_neg (by decide), if_neg (by decide), if_neg (by decide), if_pos trivial, hread, own_none]
  rfl

/-- The words that stand for objects do not look like numbers. -/
theorem ofKeyword?_spec {word : Bytes} (h : Object.ofKeyword? word = some o) :
    word ≠ [] ∧ (∀ b ∈ word, isRegular b = true) ∧ ∀ b ∈ word.head?, startsNumber b = false := by
  unfold Object.ofKeyword? at h
  split_ifs at h
  all_goals
    subst word
    exact ⟨nofun, List.all_eq_true.mp rfl, fun _ hb => by cases hb; rfl⟩

theorem readNested?_keyword {word : Bytes} (hword : Object.ofKeyword? word = some o) {b : UInt8}
    {tail : Bytes} (hcons : word = b :: tail) (hb : b = 102 ∨ b = 110 ∨ b = 116)
    (hrest : EndsWord rest) :
    readNested? mode (levels + 1) (word ++ rest) = some (o, rest) := by
  obtain ⟨hne, hregular, -⟩ := ofKeyword?_spec hword
  have hread := readKeyword?_append hword hregular hne hrest
  rw [hcons, List.cons_append] at hread ⊢
  rcases hb with rfl | rfl | rfl <;>
    (rw [readNested?, skipSpace_opens rfl]; exact hread)

/-! ## Items and entries -/

theorem Spaced.length_le {texts : List Bytes} (h : Spaced texts text) (hne : ∀ t ∈ texts, t ≠ []) :
    texts.length ≤ text.length := by
  induction h with
  | nil => exact Nat.le_refl _
  | @cons t _ _ _ _ _ _ ih =>
    obtain ⟨ht, hne⟩ := List.forall_mem_cons.mp hne
    have hpos := List.length_pos_iff.mpr ht
    have hle := ih hne
    simp only [List.length_cons, List.length_append]
    omega

theorem readItems?_close (h : IsBlank blank) (rest : Bytes) :
    readItems? read (fuel + 1) (blank ++ 93 :: rest) = some ([], rest) := by
  rw [readItems?, h.spacing.skipSpace_append, skipSpace_cons (by decide) (by decide)]
  rfl

theorem readItems?_cons (hblank : IsBlank blank) (hw : Written o text) {item : Object}
    (hread : read (text ++ data) = some (item, rest)) :
    readItems? read (fuel + 1) (blank ++ (text ++ data)) =
      (readItems? read fuel rest).map fun p => (item :: p.1, p.2) := by
  obtain ⟨b, tail, rfl, hb⟩ := hw.eq_cons
  obtain ⟨-, -, -, -, hclose, -⟩ := opensObject_spec hb
  rw [List.cons_append] at hread
  rw [readItems?, hblank.spacing.skipSpace_append, List.cons_append, skipSpace_opens hb]
  split
  · rename_i heq
    exact absurd (List.cons.inj heq).1 hclose
  · simp only [hread, Option.bind_eq_bind, Option.bind_some]
    cases readItems? read fuel rest <;> rfl

theorem readItems?_spaced {items : List (Object × Bytes)} (hwritten : ∀ p ∈ items, Written p.1 p.2)
    (hread : ∀ p ∈ items, ∀ rest, Ends rest → read (p.2 ++ rest) = some (value p.1, rest))
    (hspaced : Spaced (items.map Prod.snd) text) (hblank : IsBlank blank)
    (hfuel : items.length < fuel) :
    readItems? read fuel (blank ++ (text ++ 93 :: rest)) =
      some (items.map fun p => value p.1, rest) := by
  induction items generalizing text blank fuel with
  | nil =>
    cases hspaced
    obtain ⟨fuel, rfl⟩ := Nat.exists_eq_succ_of_ne_zero (Nat.ne_zero_of_lt hfuel)
    exact readItems?_close hblank rest
  | cons p items ih =>
    obtain ⟨fuel, rfl⟩ := Nat.exists_eq_succ_of_ne_zero (Nat.ne_zero_of_lt hfuel)
    obtain ⟨hfirst, hwritten⟩ := List.forall_mem_cons.mp hwritten
    obtain ⟨hreadFirst, hread⟩ := List.forall_mem_cons.mp hread
    cases hspaced with
    | @cons _ inner after _ hinner hlast hspaced =>
      have htexts : ∀ t ∈ items.map Prod.snd, EndsBefore t := by
        intro t ht
        obtain ⟨q, hq, rfl⟩ := List.mem_map.mp ht
        exact (hwritten q hq).endsBefore
      have hends : Ends (inner ++ (after ++ 93 :: rest)) := hspaced.ends_append htexts
        (fun _ h => ends_append_delimiter h (by decide) (by decide) rest) inner hinner hlast
      have hrest := ih hwritten hread hspaced hinner (Nat.lt_of_succ_lt_succ hfuel)
      rw [List.append_assoc, List.append_assoc, readItems?_cons hblank hfirst (hreadFirst _ hends),
        hrest]
      rfl

theorem readEntries?_close (h : IsBlank blank) (d : Dict) (rest : Bytes) :
    readEntries? read (fuel + 1) d (blank ++ 62 :: 62 :: rest) = some (d, rest) := by
  rw [readEntries?, h.spacing.skipSpace_append, skipSpace_cons (by decide) (by decide)]
  rfl

theorem readEntries?_cons (hblank : IsBlank blank) (e : EntryText) {item : Object}
    (hread : read (e.blank ++ (e.text ++ data)) = some (item, rest)) (d : Dict) :
    readEntries? read (fuel + 1) d (blank ++ (e.code ++ data)) =
      readEntries? read fuel (if item.isNull then d else d.insert e.key item) rest := by
  have hname := readName?_append e.token_spells
    (e.blank_isBlank.endsWord_append e.blank_ne_nil (e.text ++ data))
  rw [readEntries?, hblank.spacing.skipSpace_append, EntryText.code, List.cons_append,
    skipSpace_opens rfl, List.append_assoc, List.append_assoc]
  split
  · rename_i heq
    cases heq
  · simp only [hname, hread, Option.bind_eq_bind, Option.bind_some]

theorem readEntries?_spaced {entries : List EntryText}
    (hread : ∀ e ∈ entries, ∀ rest, Ends rest →
      read (e.blank ++ (e.text ++ rest)) = some (value e.value, rest))
    (hnull : ∀ e ∈ entries, (value e.value).isNull = false)
    (hspaced : Spaced (entries.map EntryText.code) text) (hblank : IsBlank blank)
    (hfuel : entries.length < fuel) (d : Dict) :
    readEntries? read fuel d (blank ++ (text ++ 62 :: 62 :: rest)) =
      some ((entries.map fun e => (e.key, value e.value)).foldl (fun d p => d.insert p.1 p.2) d,
        rest) := by
  induction entries generalizing text blank fuel d with
  | nil =>
    cases hspaced
    obtain ⟨fuel, rfl⟩ := Nat.exists_eq_succ_of_ne_zero (Nat.ne_zero_of_lt hfuel)
    exact readEntries?_close hblank d rest
  | cons e entries ih =>
    obtain ⟨fuel, rfl⟩ := Nat.exists_eq_succ_of_ne_zero (Nat.ne_zero_of_lt hfuel)
    obtain ⟨hreadFirst, hread⟩ := List.forall_mem_cons.mp hread
    obtain ⟨hnullFirst, hnull⟩ := List.forall_mem_cons.mp hnull
    cases hspaced with
    | @cons _ inner after _ hinner hlast hspaced =>
      have htexts : ∀ t ∈ entries.map EntryText.code, EndsBefore t := by
        intro t ht
        obtain ⟨e, _, rfl⟩ := List.mem_map.mp ht
        exact e.endsBefore
      have hends : Ends (inner ++ (after ++ 62 :: 62 :: rest)) := hspaced.ends_append htexts
        (fun _ h => ends_append_delimiter h (by decide) (by decide) _) inner hinner hlast
      have hrest := ih hread hnull hspaced hinner (Nat.lt_of_succ_lt_succ hfuel)
        (d.insert e.key (value e.value))
      rw [List.append_assoc, List.append_assoc, readEntries?_cons hblank e (hreadFirst _ hends),
        hnullFirst]
      exact hrest

/-! ## Containers -/

theorem readNested?_array {items : List Object}
    (hread : ∀ o ∈ items, ∀ text rest, Written o text → Ends rest →
      readNested? mode levels (text ++ rest) = some (value o, rest))
    (hw : Written (.array items) text) (rest : Bytes) :
    readNested? mode (levels + 1) (text ++ rest) = some (.array (items.map value), rest) := by
  cases hw with
  | @array parts blank inner hwritten hblank hspaced =>
    have hparts : ∀ p ∈ parts, ∀ rest, Ends rest →
        readNested? mode levels (p.2 ++ rest) = some (value p.1, rest) :=
      fun p hp rest hrest => hread p.1 (List.mem_map_of_mem hp) _ _ (hwritten p hp) hrest
    have hne : ∀ t ∈ parts.map Prod.snd, t ≠ [] := by
      intro t ht
      obtain ⟨p, hp, rfl⟩ := List.mem_map.mp ht
      obtain ⟨b, tail, htext, -⟩ := (hwritten p hp).eq_cons
      simp [htext]
    have hlen := hspaced.length_le hne
    rw [readNested?, List.cons_append, skipSpace_opens rfl, List.map_map]
    simp only [List.append_assoc, List.cons_append, List.nil_append]
    rw [if_neg (by decide), if_neg (by decide), if_pos trivial,
      readItems?_spaced hwritten hparts hspaced hblank]
    · rfl
    · simp only [List.length_map, List.length_append, List.length_cons] at hlen ⊢
      omega

/-- A dictionary is read up to its closing brackets, whatever comes after them. -/
theorem readNested?_dict
    (hread : ∀ p ∈ d.entries, ∀ text rest, Written p.2 text → Ends rest →
      readNested? mode levels (text ++ rest) = some (p.2.ownedBy owner, rest))
    (hincreasing : Dict.Increasing d.entries) (hnull : ∀ p ∈ d.entries, p.2.isNull = false)
    (hw : Written (.dict d) text) (rest : Bytes) :
    readNested? mode (levels + 1) (text ++ rest) = readAfterDict? mode (d.ownedBy owner) rest := by
  cases hw with
  | @dict _ parts blank inner hwritten hperm hblank hspaced =>
    have hmem : ∀ e ∈ parts, e.entry ∈ d.entries :=
      fun e he => hperm.mem_iff.mp (List.mem_map_of_mem he)
    have hvalues : ∀ e ∈ parts, ∀ rest, Ends rest →
        readNested? mode levels (e.blank ++ (e.text ++ rest)) =
          some (e.value.ownedBy owner, rest) := by
      intro e he rest hrest
      rw [readNested?_spacing e.blank_isBlank.spacing]
      exact hread e.entry (hmem e he) _ _ (hwritten e he) hrest
    have hnulls : ∀ e ∈ parts, (e.value.ownedBy owner).isNull = false := by
      intro e he
      rw [Object.isNull_ownedBy]
      exact hnull e.entry (hmem e he)
    have howned : (parts.map fun e => (e.key, e.value.ownedBy owner)).Perm
        (d.ownedBy owner).entries := by
      have hmap := hperm.map fun p => (p.1, p.2.ownedBy owner)
      rwa [List.map_map, ← Dict.entries_ownedBy] at hmap
    have hlen := hspaced.length_le (by simp [EntryText.code])
    rw [readNested?, List.cons_append, skipSpace_opens rfl]
    simp only [List.append_assoc, List.cons_append, List.nil_append]
    rw [if_neg (by decide), if_neg (by decide), if_neg (by decide), if_pos trivial,
      readEntries?_spaced hvalues hnulls hspaced hblank,
      Dict.foldl_insert_eq_of_perm (Dict.increasing_ownedBy hincreasing) howned]
    · rfl
    · simp only [List.length_map, List.length_append, List.length_cons] at hlen ⊢
      omega

theorem readAfterDict?_of_ends (hrest : EndsIn inContent rest) :
    readAfterDict? ⟨owner, inContent⟩ d rest = some (.dict d, rest) := by
  cases inContent with
  | false => simp [readAfterDict?, (hrest.ends rfl).dictionary]
  | true => rfl

/-- The object of a text is read with the owner that the mode knows. A content stream has no references. -/
theorem readNested?_written (h : Printable levels o) (href : inContent = true → ¬ HoldsRef o)
    (hw : Written o text) (hrest : EndsIn inContent rest) :
    readNested? ⟨owner, inContent⟩ levels (text ++ rest) = some (o.ownedBy owner, rest) := by
  -- what comes after an item is known to end it, so the rest is generalized with the text
  induction h generalizing text rest with
  | null =>
    cases hw
    exact readNested?_keyword rfl rfl (.inr (.inl rfl)) hrest.word
  | bool b =>
    cases hw
    cases b with
    | false => exact readNested?_keyword rfl rfl (.inl rfl) hrest.word
    | true => exact readNested?_keyword rfl rfl (.inr (.inr rfl)) hrest.word
  | integer i =>
    cases hw
    exact readNested?_integer i hrest
  | literal bytes =>
    cases hw with
    | literal h => simpa using readNested?_literal h rest
  | hex h =>
    cases hw
    simpa using readNested?_hex h rest
  | name name =>
    cases hw with
    | name h => exact readNested?_name h hrest.word
  | ref target =>
    cases hw
    cases inContent with
    | false => exact readNested?_ref target (hrest.ends rfl)
    | true => exact absurd (.ref target) (href rfl)
  | @array n items _ ih =>
    have hread : ∀ o ∈ items, ∀ text rest, Written o text → Ends rest →
        readNested? ⟨owner, inContent⟩ n (text ++ rest) = some (o.ownedBy owner, rest) :=
      fun o ho _ _ hw hrest => ih o ho (fun hmode h => href hmode (.item ho h)) hw hrest.endsIn
    rw [readNested?_array hread hw, Object.ownedBy_array]
  | @dict n d hincreasing hnull _ ih =>
    have hread : ∀ p ∈ d.entries, ∀ text rest, Written p.2 text → Ends rest →
        readNested? ⟨owner, inContent⟩ n (text ++ rest) = some (p.2.ownedBy owner, rest) :=
      fun p hp _ _ hw hrest => ih p hp (fun hmode h => href hmode (.value hp h)) hw hrest.endsIn
    rw [readNested?_dict hread hincreasing hnull hw, readAfterDict?_of_ends hrest, Object.ownedBy_dict]

/-! ## Streams -/

theorem nat?_ofInt {length : Int64} {n : Nat} (h : length.toInt = n) :
    (Object.ofInt length).nat? = some n := by
  have hlt : length.toInt ≤ 9223372036854775807 := Int.le_of_lt_add_one length.toInt_lt
  have hrange : 0 ≤ length.toInt ∧ length.toInt ≤ ((UInt64.size : Nat) : Int) - 1 := by
    rw [UInt64.size]
    omega
  simp only [Object.nat?, Object.natBelow?, Object.intWithin?, Object.int64?, Object.number?,
    Object.ofInt, Option.map_some, Number.toInt64, if_pos hrange]
  rw [h, Int.toNat_natCast]

theorem readSizedStreamData?_append (data rest : Bytes) :
    readSizedStreamData? data.length (data ++ 10 :: (Bytes.ofAscii "endstream" ++ rest)) =
      some (data, rest) := by
  have hsplit : (data ++ 10 :: (Bytes.ofAscii "endstream" ++ rest)).splitAt? data.length =
      some (data, 10 :: (Bytes.ofAscii "endstream" ++ rest)) :=
    Bytes.splitAt?_eq_some.mpr ⟨rfl, rfl⟩
  have hskip : skipSpace (10 :: (Bytes.ofAscii "endstream" ++ rest)) =
      Bytes.ofAscii "endstream" ++ rest := rfl
  simp only [readSizedStreamData?, hsplit, hskip, Bytes.dropTag?_append, Option.bind_eq_bind,
    Option.bind_some]

/-- The data of a stream are found by their length, whatever they look like. -/
theorem readAfterDict?_stream {length : Int64} (hget : d.get? "Length" = some (.ofInt length))
    (hlength : length.toInt = data.length) (hblank : IsBlank blank) (rest : Bytes) :
    readAfterDict? ⟨owner, false⟩ (d.ownedBy owner) (blank ++ (Bytes.ofAscii "stream" ++
        10 :: (data ++ 10 :: (Bytes.ofAscii "endstream" ++ rest)))) =
      some (.stream ⟨d.ownedBy owner, data, owner⟩, rest) := by
  have hkeyword : skipSpace (Bytes.ofAscii "stream" ++
      10 :: (data ++ 10 :: (Bytes.ofAscii "endstream" ++ rest))) = Bytes.ofAscii "stream" ++
      10 :: (data ++ 10 :: (Bytes.ofAscii "endstream" ++ rest)) := rfl
  have hline : skipEndOfLine (10 :: (data ++ 10 :: (Bytes.ofAscii "endstream" ++ rest))) =
      data ++ 10 :: (Bytes.ofAscii "endstream" ++ rest) := rfl
  have hsize : (d.ownedBy owner).getAs? Object.nat? "Length" = some data.length := by
    have howned : (Object.ofInt length).ownedBy owner = .ofInt length := rfl
    rw [Dict.getAs?, Dict.get?_ownedBy, hget, Option.map_some, howned, Option.bind_some,
      nat?_ofInt hlength]
  simp only [readAfterDict?, Bool.false_eq_true, if_false, hblank.spacing.skipSpace_append, hkeyword,
    Bytes.dropTag?_append, hline, readStreamData?, hsize, Option.bind_some,
    readSizedStreamData?_append, Option.some_or, Option.map_some]

theorem readObject?_writtenWhole (h : Definable o) (hw : WrittenWhole o text) (hrest : Ends rest) :
    readObject? ⟨owner, false⟩ (text ++ rest) = some (o.ownedBy owner, rest) := by
  cases hw with
  | direct hw =>
    cases h with
    | direct h => exact readNested?_written h nofun hw hrest.endsIn
    | stream _ _ _ => cases hw
  | @stream d dictText blank data hw hblank =>
    cases h with
    | direct h => cases h
    | @stream _ _ length hdict hget hlength =>
      cases hdict with
      -- after the brackets there is a keyword, so the dictionary is not read as an object that ends there
      | dict hincreasing hnull hvalues =>
        have hread : ∀ p ∈ d.entries, ∀ text rest, Written p.2 text → Ends rest →
            readNested? ⟨owner, false⟩ maxNesting (text ++ rest) =
              some (p.2.ownedBy owner, rest) :=
          fun p hp _ _ hw hrest => readNested?_written (hvalues p hp) nofun hw hrest.endsIn
        rw [List.append_assoc, readObject?, readNested?_dict hread hincreasing hnull hw]
        have hstream := @readAfterDict?_stream d blank data owner _ hget hlength hblank rest
        simpa using hstream

/-! ## Whole texts -/

theorem Printable.ownedBy_none (h : Printable levels o) : o.ownedBy none = o := by
  induction h with
  | array _ ih =>
    rw [Object.ownedBy_array, List.map_congr_left ih, List.map_id']
  | @dict _ d _ _ _ ih =>
    have hentries : ∀ p ∈ d.entries, (p.1, p.2.ownedBy none) = p :=
      fun p hp => Prod.ext rfl (ih p hp)
    rw [Object.ownedBy_dict, Object.dict.injEq]
    apply Dict.eq_of_entries_eq
    rw [Dict.entries_ownedBy, List.map_congr_left hentries, List.map_id']
  | _ => rfl

theorem Definable.ownedBy_none (h : Definable o) : o.ownedBy none = o := by
  cases h with
  | direct h => exact h.ownedBy_none
  | @stream d data _ h _ _ =>
    have hdict := h.ownedBy_none
    rw [Object.ownedBy_dict, Object.dict.injEq] at hdict
    rw [Object.ownedBy_stream, hdict]

/-- What may stand after a whole text: white space, and perhaps a delimiter and anything after it. -/
inductive Closed : Bytes → Prop
  | ended {blank : Bytes} : IsBlank blank → Closed blank
  | delimiter {blank rest : Bytes} {b : UInt8} :
    IsBlank blank → isDelimiter b = true → b ≠ 37 → Closed (blank ++ b :: rest)

theorem Closed.ends (h : Closed rest) : Ends rest := by
  cases h with
  | ended hblank => exact ends_of_isBlank hblank
  | delimiter hblank hb hpercent => exact ends_append_delimiter hblank hb hpercent _

theorem parseObject?_writtenWhole {lead follow : Bytes} (h : Definable o) (hw : WrittenWhole o text)
    (hlead : Spacing lead) (hfollow : Closed follow) :
    parseObject? (lead ++ (text ++ follow)) = some o := by
  have hread := @readObject?_writtenWhole o text follow none h hw hfollow.ends
  rw [readObject?] at hread
  rw [parseObject?, readObject?, readNested?_spacing hlead, hread, h.ownedBy_none]
  rfl

/-- An object that can be defined has a text, and from each of its texts it is read back as it was. -/
theorem parse_print (h : Definable o) :
    WrittenWhole o (print o) ∧ ∀ text lead follow, WrittenWhole o text → Spacing lead →
      Closed follow → parseObject? (lead ++ (text ++ follow)) = some o := by
  constructor
  · exact writtenWhole_print h
  · intro text lead follow hw hlead hfollow
    exact parseObject?_writtenWhole h hw hlead hfollow

/-- A dictionary with integers that look like a reference, and strings and a name with escapes. -/
def escapedDict : Dict :=
  ⟨[("K(", .array [.ofInt (-5), .ofInt 6, .ref ⟨7, 0⟩, .str ⟨.literal [40, 13], none⟩,
    .str ⟨.hex [97], none⟩, .null]), ("Length", .ofInt 9)]⟩

/-- A stream with the mark of its end in its data. -/
def escapedStream : Object := .stream ⟨escapedDict, .ofAscii "endstream", none⟩

theorem printable_escapedDict (n : Nat) : Printable (n + 3) (.dict escapedDict) := by
  refine .dict ?_ ?_ ?_
  · exact List.pairwise_pair.mpr (by decide)
  · simp [escapedDict, Object.isNull, Object.ofInt]
  · simp only [escapedDict, List.forall_mem_cons, Object.ofInt]
    refine ⟨.array ?_, .integer _, by simp⟩
    simp only [List.forall_mem_cons]
    exact ⟨.integer _, .integer _, .ref _, .literal _, .hex (by decide +kernel), .null, by simp⟩

theorem definable_escapedStream : Definable escapedStream :=
  .stream (printable_escapedDict 254) rfl (by decide)

theorem parse_print_escapedStream : Definable escapedStream ∧
    parseObject? ([37, 40, 10] ++ (print escapedStream ++ [32, 41])) = some escapedStream := by
  have hlead : Spacing [37, 40, 10] := @Spacing.comment [40] [] 10 (by decide +kernel) rfl .nil
  have hfollow : Closed [32, 41] := @Closed.delimiter [32] [] 41 isBlank_space rfl (by decide)
  obtain ⟨hprint, hparse⟩ := parse_print definable_escapedStream
  exact ⟨definable_escapedStream, hparse _ _ _ hprint hlead hfollow⟩

end Syntax

end Folio
