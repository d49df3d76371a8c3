import Folio.Proofs.Syntax.Steps

/-!
# A parser reads what the grammar says

Main statements: `Parser.At.reads_readObject`, `Parser.At.reads_readIndirect`. Wherever a parser is, it reads the object
that the grammar finds in the data that are left, and ends before the rest that the grammar leaves.
-/

namespace Folio.Syntax

variable {α β : Type} {data rest text : Bytes}

/-! ## The texts of tokens -/

/-- Whether there are digits in the numeral without a sign that some data start with, and the data after it. -/
def scanned (isReal : Bool) (data : Bytes) : Bool × Bytes :=
  let digits := data.takeWhile isDigit
  match isReal, data.dropWhile isDigit with
  | false, 46 :: rest => (!digits.isEmpty || !(rest.takeWhile isDigit).isEmpty, rest.dropWhile isDigit)
  | _, rest => (!digits.isEmpty, rest)

theorem scanned_nil (isReal : Bool) : scanned isReal [] = (false, []) := by
  cases isReal <;> rfl

theorem scanned_digit {b : UInt8} (isReal : Bool) (hb : isDigit b = true) :
    scanned isReal (b :: data) = (true, (scanned isReal data).2) := by
  simp only [scanned, List.takeWhile_cons_of_pos hb, List.dropWhile_cons_of_pos hb, List.isEmpty_cons,
    Bool.not_false, Bool.true_or]
  split <;> simp_all

theorem scanned_point : scanned false (46 :: data) = scanned true data := by
  have hpoint : isDigit 46 = false := by decide
  simp [scanned, hpoint]

theorem scanned_end {b : UInt8} {isReal : Bool} (hdigit : isDigit b = false) (hpoint : ¬(b = 46 ∧ isReal = false)) :
    scanned isReal (b :: data) = (false, b :: data) := by
  simp only [scanned, List.takeWhile_cons_of_neg (Bool.eq_false_iff.mp hdigit),
    List.dropWhile_cons_of_neg (Bool.eq_false_iff.mp hdigit)]
  split <;> simp_all

theorem scanned_of_dropWhile (isReal : Bool) (h : ∀ rest, data.dropWhile isDigit ≠ 46 :: rest) :
    scanned isReal data = (!(data.takeWhile isDigit).isEmpty, data.dropWhile isDigit) := by
  simp only [scanned]
  split
  · rename_i hpoint
    exact absurd hpoint (h _)
  · rfl

theorem readNumeral?_eq_scanned (data : Bytes) :
    (readNumeral? data).map (·.2) =
      if (scanned false (splitSign data).2).1 then some (scanned false (splitSign data).2).2 else none := by
  simp only [readNumeral?]
  generalize (splitSign data).2 = unsigned
  split
  · rename_i hrest
    simp only [scanned, hrest]
    split <;> simp_all
  · rename_i hpoint
    rw [scanned_of_dropWhile false hpoint]
    split <;> simp_all

theorem splitSign_eq_append (data : Bytes) :
    ∃ sign, data = sign ++ (splitSign data).2 ∧
      ∀ text, text <+: (splitSign data).2 → splitSign (sign ++ text) = ((splitSign data).1, text) := by
  unfold splitSign
  split
  · exact ⟨[43], rfl, fun _ _ => rfl⟩
  · exact ⟨[45], rfl, fun _ _ => rfl⟩
  · rename_i hplus hminus
    refine ⟨[], rfl, fun text htext => ?_⟩
    obtain ⟨rest, rfl⟩ := htext
    rw [List.nil_append]
    split
    · exact absurd rfl (hplus _)
    · exact absurd rfl (hminus _)
    · rfl

/-- The text of a numeral is that numeral and nothing else. -/
theorem exists_text_of_readNumeral? {n : Numeral} (h : readNumeral? data = some (n, rest)) :
    ∃ text, data = text ++ rest ∧ readNumeral? text = some (n, []) := by
  obtain ⟨sign, hdata, hsign⟩ := splitSign_eq_append data
  simp only [readNumeral?] at h
  generalize splitSign data = signed at h hdata hsign
  have hend : ∀ b ∈ ([] : Bytes).head?, isDigit b = false := by simp
  have hunsigned := List.takeWhile_append_dropWhile (p := isDigit) (l := signed.2)
  have hwhole : ∀ b ∈ signed.2.takeWhile isDigit, isDigit b = true := fun b hb => List.mem_takeWhile_imp hb
  split at h
  · rename_i afterPoint hpoint
    obtain ⟨hdigits, h⟩ := Option.ite_none_left_eq_some.mp h
    cases h
    rw [hpoint] at hunsigned
    have hfraction : ∀ b ∈ afterPoint.takeWhile isDigit, isDigit b = true := fun b hb => List.mem_takeWhile_imp hb
    have hafter := List.takeWhile_append_dropWhile (p := isDigit) (l := afterPoint)
    generalize signed.2.takeWhile isDigit = whole at hunsigned hwhole hdigits
    generalize afterPoint.takeWhile isDigit = fraction at hfraction hafter hdigits
    generalize afterPoint.dropWhile isDigit = rest at hafter
    subst hafter
    refine ⟨sign ++ (whole ++ 46 :: fraction), ?_, ?_⟩
    · rw [hdata, ← hunsigned]
      simp
    · have hpoint : ∀ b ∈ (46 :: fraction).head?, isDigit b = false := by
        rintro b ⟨⟩
        decide
      obtain ⟨htake, hdrop⟩ := span_append hwhole hpoint
      obtain ⟨htakeFraction, hdropFraction⟩ := span_append hfraction hend
      rw [List.append_nil] at htakeFraction hdropFraction
      have hprefix : whole ++ 46 :: fraction <+: signed.2 := ⟨rest, by rw [← hunsigned]; simp⟩
      simp only [readNumeral?, hsign _ hprefix, htake, hdrop, htakeFraction, hdropFraction, if_neg hdigits]
  · obtain ⟨hdigits, h⟩ := Option.ite_none_left_eq_some.mp h
    cases h
    refine ⟨sign ++ signed.2.takeWhile isDigit, ?_, ?_⟩
    · rw [List.append_assoc, hunsigned, hdata]
    · obtain ⟨htake, hdrop⟩ := span_append hwhole hend
      rw [List.append_nil] at htake hdrop
      simp only [readNumeral?, hsign _ (List.takeWhile_prefix isDigit), htake, hdrop, if_neg hdigits]

theorem splitSign_cons {b : UInt8} (hplus : b ≠ 43) (hminus : b ≠ 45) :
    splitSign (b :: rest) = (false, b :: rest) := by
  simp [splitSign, hplus, hminus]

theorem eq_append_of_spanLiteral? {nesting : Nat} (h : spanLiteral? nesting data = some (text, rest)) :
    data = text ++ 41 :: rest := by
  fun_induction spanLiteral? nesting data generalizing text with
  | case1 | case2 => cases h
  | case5 =>
    cases h
    rfl
  | case3 _ _ _ ih | case4 _ _ _ _ ih | case6 _ _ _ _ _ ih | case7 _ _ _ _ _ _ _ ih =>
    obtain ⟨⟨_, _⟩, hspan, hrest⟩ := Option.map_eq_some_iff.mp h
    cases hrest
    rw [ih hspan]
    rfl

theorem prefix_of_keyword? {word : Bytes} (h : keyword? data = some word) : word <+: data := by
  obtain ⟨-, hword⟩ := Option.ite_none_left_eq_some.mp h
  exact Option.some.inj hword ▸ List.takeWhile_prefix isRegular

/-! ## Indirect objects -/

/-- The definition of an indirect object that some data start with, as it is read inside of containers or in a content
stream, where the object opens fewer than `levels` containers inside each other. -/
def readIndirectIn? (inContent : Bool) (levels : Nat) (data : Bytes) : Option ((Ref × Object) × Bytes) := do
  let (number, data) ← readInteger? (skipSpace data)
  let (generation, data) ← readInteger? (skipSpace data)
  let data ← Bytes.dropTag? (.ofAscii "obj") (skipSpace data)
  let target ← Ref.ofInts? number.toInt generation.toInt
  let (o, data) ← readNested? ⟨some target, inContent⟩ levels data
  let data := skipSpace data
  some ((target, o), (Bytes.dropTag? (.ofAscii "endobj") data).getD data)

theorem readIndirectIn?_eq (data : Bytes) : readIndirectIn? false (maxNesting + 1) data = readIndirect? data := rfl

namespace Parser

open Parse

variable {p : Parser}

/-! ## Numbers -/

/-- The fuel is used up by the bytes of the numeral; a second point ends it. -/
theorem At.reads_scanNumeral (h : p.At data) {fuel : Nat} (hfuel : data.length ≤ fuel) (isReal hasDigits : Bool) :
    p.Reads (scanNumeral fuel isReal hasDigits)
      (some (hasDigits || (scanned isReal data).1, (scanned isReal data).2)) := by
  induction fuel generalizing p data isReal hasDigits with
  | zero =>
    obtain rfl := List.eq_nil_of_length_eq_zero (Nat.le_zero.mp hfuel)
    rw [scanned_nil, Bool.or_false]
    exact h.reads_pure hasDigits
  | succ fuel ih =>
    refine h.reads_peek_bind ?_
    cases data with
    | nil =>
      rw [scanned_nil, Bool.or_false]
      exact h.reads_pure hasDigits
    | cons b data =>
      have hfuel : data.length ≤ fuel := Nat.le_of_succ_le_succ hfuel
      have hjump : p.Reads (move fun c => c.jump (c.offset + 1)) (some ((), data)) :=
        At.reads_move h (Cursor.seek_of_cons h.rest_eq).symm (List.suffix_cons b data)
      show p.Reads (if isDigit b then _ else _) _
      split
      · rename_i hdigit
        rw [scanned_digit isReal hdigit, Bool.or_true, ← Bool.true_or (scanned isReal data).1]
        exact h.bind_some hjump fun hat => ih hat hfuel isReal true
      · rename_i hdigit
        split
        · rename_i hpoint
          rw [hpoint.1, hpoint.2, scanned_point]
          exact h.bind_some hjump fun hat => ih hat hfuel true hasDigits
        · rename_i hpoint
          rw [scanned_end (Bool.eq_false_iff.mpr hdigit) hpoint, Bool.or_false]
          exact h.reads_pure hasDigits

theorem At.reads_sign (h : p.At data) :
    ∃ signed, p.Reads (Parse.succeeds (move? (·.dropIf? isSign))) (some (signed, (splitSign data).2)) := by
  cases data with
  | nil =>
    have hdrop : p.cursor.dropIf? isSign = none := by
      rw [Cursor.dropIf?, Cursor.peekByte?, h.rest_eq]
      rfl
    have hsign : move? (·.dropIf? isSign) p = (none, p) := move?_eq_none hdrop
    exact ⟨false, h.reads_succeeds (At.reads_none hsign) fun _ => hsign⟩
  | cons b rest =>
    by_cases hb : isSign b = true
    · have hdrop : p.cursor.dropIf? isSign = some (p.cursor.seek rest) := by
        rw [Cursor.seek_of_cons h.rest_eq, Cursor.dropIf?, Cursor.peekByte?, h.rest_eq]
        exact if_pos hb
      have hsign : p.Reads (move? (·.dropIf? isSign)) ((some rest).map ((), ·)) := by
        refine h.reads_move? hdrop ?_
        rintro _ ⟨⟩
        exact List.suffix_cons b rest
      have hrest : (splitSign (b :: rest)).2 = rest := by
        rw [isSign, Bool.or_eq_true, beq_iff_eq, beq_iff_eq] at hb
        rcases hb with rfl | rfl <;> rfl
      rw [hrest]
      exact ⟨true, h.reads_succeeds hsign (by simp)⟩
    · have hdrop : p.cursor.dropIf? isSign = none := by
        rw [Cursor.dropIf?, Cursor.peekByte?, h.rest_eq]
        exact if_neg hb
      have hsign : move? (·.dropIf? isSign) p = (none, p) := move?_eq_none hdrop
      rw [isSign, Bool.or_eq_true, beq_iff_eq, beq_iff_eq, not_or] at hb
      rw [splitSign_cons hb.1 hb.2]
      exact ⟨false, h.reads_succeeds (At.reads_none hsign) fun _ => hsign⟩

/-- The number that is read from the text of a numeral is the one that the data start with. -/
theorem At.reads_readNumber (h : p.At data) : p.Reads readNumber (readNumber? data) := by
  obtain ⟨signed, hsign⟩ := h.reads_sign
  have hscanned := readNumeral?_eq_scanned data
  have hrest := hsign.suffix h _ _ rfl
  refine reads_offset_bind (h.bind_some hsign fun hat => ?_)
  generalize (splitSign data).2 = unsigned at *
  have hnumeral := hat.reads_scanNumeral le_rfl false false
  refine hat.reads_remaining_bind (hat.bind_some hnumeral fun hat' => ?_)
  have hafter := hnumeral.suffix hat _ _ rfl
  generalize scanned false unsigned = numeral at *
  rw [h.seek_seek hrest hafter] at hat' ⊢
  rw [Bool.false_or, readNumber?]
  cases hread : readNumeral? data with
  | none =>
    rw [hread, Option.map_none] at hscanned
    rw [if_neg (by simpa using hscanned)]
    exact ⟨p.cursor.offset, rfl⟩
  | some read =>
    rw [hread, Option.map_some] at hscanned
    obtain ⟨hdigits, hend⟩ := Option.ite_some_none_eq_some.mp hscanned.symm
    obtain ⟨text, rfl, htext⟩ := exists_text_of_readNumeral? hread
    rw [if_pos hdigits]
    rw [hend] at hat' ⊢
    refine reads_bind_of_self (h.textFrom_eq rfl) ?_
    have hnumber : readNumber? text = some (read.1.toNumber, []) := by rw [readNumber?, htext, Option.map_some]
    rw [hnumber]
    exact hat'.reads_pure _

theorem At.reads_readInteger (h : p.At data) : p.Reads readInteger (readInteger? data) := by
  have hnumber := h.reads_readNumber
  unfold readInteger?
  cases hread : readNumber? data with
  | none =>
    rw [hread] at hnumber
    exact hnumber.bind_none
  | some read =>
    rw [hread] at hnumber
    refine h.bind_some hnumber fun hat => ?_
    obtain ⟨number, rest⟩ := read
    cases number with
    | integer i => exact hat.reads_pure i
    | real x => exact reads_failure _

theorem At.reads_readReference (h : p.At data) : p.Reads readReference (readReference? data) := by
  refine Reads.restoring ?_
  refine h.bind h.reads_readInteger fun number data _ hat => ?_
  refine hat.bind_drop hat.reads_blanks fun data _ hat => ?_
  refine hat.bind hat.reads_readInteger fun generation data _ hat => ?_
  refine hat.bind_drop hat.reads_blanks fun data _ hat => ?_
  have hletter := hat.reads_tag [82]
  split
  · refine hat.bind_some hletter fun hat => hat.reads_peek_bind ?_
    split
    · exact reads_failure _
    · have htarget := hat.reads_see? (Ref.ofInts? number.toInt generation.toInt)
      rw [Option.map_eq_bind] at htarget
      exact htarget
  · rename_i hother
    rw [Bytes.dropTag?_eq_none hother] at hletter
    exact hletter.bind_none

/-! ## Names, strings and words -/

theorem At.reads_readName (h : p.At data) : p.Reads readName (readName? data) := by
  have hslash := h.reads_tag [47]
  unfold readName?
  split
  · rename_i data
    refine h.bind_some hslash fun hat => reads_offset_bind (hat.bind_some (hat.reads_dropWhile isRegular) fun hat' => ?_)
    have hdata := List.takeWhile_append_dropWhile (p := isRegular) (l := data)
    refine reads_bind_of_self (hat.textFrom_eq hdata) (hat'.reads_pure _)
  · rename_i hother
    rw [Bytes.dropTag?_eq_none hother] at hslash
    exact hslash.bind_none

theorem At.reads_owned (h : p.At data) (s : Str) : p.Reads (owned s) (some (p.toMode.own s, data)) :=
  h.reads_self rfl

theorem At.reads_scanLiteral (h : p.At data) {fuel : Nat} (hfuel : data.length ≤ fuel) (nesting : Nat) :
    p.Reads (scanLiteral (fuel + 1) nesting) ((spanLiteral? nesting data).map fun (_, rest) => ((), rest)) := by
  fun_induction spanLiteral? nesting data generalizing p fuel with
  | case1 => exact h.reads_byte_nil.bind_none
  | case2 => exact h.bind_some h.reads_byte fun hat => hat.reads_byte_nil.bind_none
  | case3 nesting b rest ih =>
    obtain ⟨fuel, rfl⟩ := Nat.exists_eq_add_of_le' (Nat.le_of_add_left_le hfuel)
    rw [Option.map_map]
    exact h.bind_some h.reads_byte fun hat => hat.bind_some hat.reads_byte fun hat => ih hat (by grind)
  | case4 nesting rest hslash _ ih =>
    obtain ⟨fuel, rfl⟩ := Nat.exists_eq_add_of_le' (Nat.le_of_add_left_le hfuel)
    rw [Option.map_map]
    refine h.bind_some h.reads_byte fun hat => ?_
    rw [if_neg (by decide), if_pos rfl]
    exact ih hat (by grind)
  | case5 rest =>
    refine h.bind_some h.reads_byte fun hat => ?_
    rw [if_neg (by decide), if_neg (by decide), if_pos rfl]
    exact hat.reads_pure ()
  | case6 rest _ _ _ _ ih =>
    obtain ⟨fuel, rfl⟩ := Nat.exists_eq_add_of_le' (Nat.le_of_add_left_le hfuel)
    rw [Option.map_map]
    refine h.bind_some h.reads_byte fun hat => ?_
    rw [if_neg (by decide), if_neg (by decide), if_pos rfl]
    exact ih hat (by grind)
  | case7 nesting b rest hslash hslashes hopen hclose ih =>
    obtain ⟨fuel, rfl⟩ := Nat.exists_eq_add_of_le' (Nat.le_of_add_left_le hfuel)
    have hb : b ≠ 92 := by
      intro hb
      cases rest with
      | nil => exact hslash hb rfl
      | cons c rest => exact hslashes c rest hb rfl
    rw [Option.map_map]
    refine h.bind_some h.reads_byte fun hat => ?_
    rw [if_neg hb, if_neg hopen, if_neg hclose]
    exact ih hat (by grind)

theorem At.reads_readLiteral (h : p.At (40 :: data)) :
    p.Reads readLiteral ((spanLiteral? 0 data).map fun (text, rest) => (p.toMode.own (.ofEscaped text), rest)) := by
  refine h.bind_some (h.reads_tag [40]) fun hat => reads_offset_bind (hat.reads_remaining_bind ?_)
  have hscan := hat.reads_scanLiteral le_rfl 0
  cases hspan : spanLiteral? 0 data with
  | none =>
    rw [hspan] at hscan
    exact hscan.bind_none
  | some span =>
    obtain ⟨text, rest⟩ := span
    obtain rfl := eq_append_of_spanLiteral? hspan
    rw [hspan] at hscan
    refine hat.bind_some hscan fun hat' => ?_
    have hoffset : ((p.seek (text ++ 41 :: rest)).seek rest).cursor.offset - 1 =
        (p.seek (text ++ 41 :: rest)).cursor.offset + text.length := by
      rw [hat.offset_seek, List.length_append, List.length_cons]
      omega
    refine reads_bind_of_self ?_ (hat'.reads_owned (.ofEscaped text))
    rw [see?_eq, hoffset]
    exact congrArg (·, _) hat.slice?_eq

theorem At.reads_readHex (h : p.At (60 :: data)) : p.Reads readHex (readHex? p.toMode data) := by
  refine h.bind_some (h.reads_tag [60]) fun hat =>
    reads_offset_bind (hat.bind_some (hat.reads_dropWhile isHexText) fun hat' => ?_)
  have hdata := List.takeWhile_append_dropWhile (p := isHexText) (l := data)
  refine reads_bind_of_self (hat.textFrom_eq hdata) ?_
  have hclose := hat'.reads_tag [62]
  unfold readHex?
  split
  · rename_i hrest
    rw [hrest] at hclose hat' ⊢
    exact hat'.bind_some hclose fun hat => hat.reads_owned _
  · rename_i hother
    rw [Bytes.dropTag?_eq_none hother] at hclose
    exact hclose.bind_none

theorem At.reads_readKeyword (h : p.At data) : p.Reads readKeyword (readKeyword? data) := by
  have hkeyword : see? (fun c => keyword? c.rest) p = (keyword? data, p) := by rw [see?_eq, h.rest_eq]
  unfold readKeyword?
  cases hword : keyword? data with
  | none =>
    rw [hword] at hkeyword
    exact Reads.bind_none (At.reads_none hkeyword)
  | some word =>
    rw [hword] at hkeyword
    obtain ⟨rest, rfl⟩ := prefix_of_keyword? hword
    refine reads_bind_of_self hkeyword (reads_see?_bind (Object.ofKeyword? word) fun o _ => ?_)
    rw [List.drop_left]
    have hread : p.cursor.read? word.length = some (word, p.cursor.seek rest) := by
      rw [Cursor.read?, Cursor.peek?, h.slice?_eq, Option.map_some, Cursor.seek_of_append h.rest_eq]
    have htake : p.Reads (take? (·.read? word.length)) (some (word, rest)) := by
      refine h.reads_take? hread ?_
      rintro _ _ ⟨⟩
      exact List.suffix_append word rest
    exact h.bind_some htake fun hat => hat.reads_pure o

/-! ## Containers -/

/-- Whether a step reads what `read` reads, wherever it is carried out in some mode and inside of so many containers. -/
def ReadsAs (mode : Mode) (depth : Nat) (m : Parse α) (read : Bytes → Option (α × Bytes)) : Prop :=
  ∀ (p : Parser) data, p.At data → p.toMode = mode → p.depth = depth → p.Reads m (read data)

variable {mode : Mode} {depth : Nat} {m : Parse Object} {read : Bytes → Option (Object × Bytes)}

theorem ReadsAs.readItems (hread : ReadsAs mode depth m read) (fuel : Nat) :
    ReadsAs mode depth (readItems m fuel) (readItems? read fuel) := by
  induction fuel with
  | zero => exact fun p _ _ _ _ => reads_failure p
  | succ fuel ih =>
    intro p data h hmode hdepth
    rw [readItems?]
    refine h.bind_some h.reads_skipSpace fun hat => ?_
    generalize skipSpace data = data at hat ⊢
    refine hat.reads_if_tag ?close ?item
    case close =>
      rintro rest rfl hat
      exact hat.reads_pure []
    case item =>
      intro hclose
      split
      · cases hclose
      · refine hat.bind (hread _ _ hat hmode hdepth) fun item data _ hat => ?_
        exact hat.bind (ih _ _ hat hmode hdepth) fun items data _ hat => hat.reads_pure (item :: items)

theorem ReadsAs.readEntries (hread : ReadsAs mode depth m read) (fuel : Nat) (d : Dict) :
    ReadsAs mode depth (readEntries m fuel d) (readEntries? read fuel d) := by
  induction fuel generalizing d with
  | zero => exact fun p _ _ _ _ => reads_failure p
  | succ fuel ih =>
    intro p data h hmode hdepth
    rw [readEntries?]
    refine h.bind_some h.reads_skipSpace fun hat => ?_
    generalize skipSpace data = data at hat ⊢
    refine hat.reads_if_tag ?close ?entry
    case close =>
      rintro rest rfl hat
      exact hat.reads_pure d
    case entry =>
      intro hclose
      split
      · cases hclose
      · refine hat.bind hat.reads_readName fun key data _ hat => ?_
        refine hat.bind (hread _ _ hat hmode hdepth) fun value data _ hat => ?_
        exact ih _ _ _ hat hmode hdepth

theorem ReadsAs.readArray (hread : ReadsAs mode depth m read) (h : p.At (91 :: data)) (hmode : p.toMode = mode)
    (hdepth : p.depth = depth) :
    p.Reads (readArray m) ((readItems? read (data.length + 1) data).map fun (items, rest) =>
      (Object.array items, rest)) := by
  refine h.bind_some (h.reads_tag [91]) fun hat => hat.reads_remaining_bind ?_
  rw [Option.map_eq_bind]
  exact hat.bind (hread.readItems _ _ _ hat hmode hdepth) fun items rest _ hat => hat.reads_pure (Object.array items)

theorem ReadsAs.readDict (hread : ReadsAs mode depth m read) (h : p.At (60 :: 60 :: data)) (hmode : p.toMode = mode)
    (hdepth : p.depth = depth) : p.Reads (readDict m) (readEntries? read (data.length + 1) .empty data) :=
  h.bind_some (h.reads_tag [60, 60]) fun hat =>
    hat.reads_remaining_bind (hread.readEntries _ _ _ _ hat hmode hdepth)

/-! ## Streams -/

theorem At.sizedStreamData?_eq (h : p.At data) (length : Nat) :
    sizedStreamData? p.cursor.offset length p.cursor =
      (readSizedStreamData? length data).map fun (body, rest) => (body, p.cursor.seek rest) := by
  rw [sizedStreamData?, readSizedStreamData?]
  cases hsplit : data.splitAt? length with
  | none =>
    have hlength : ¬length ≤ data.length := by
      intro hle
      rw [Bytes.splitAt?, if_pos hle] at hsplit
      cases hsplit
    have hslice : p.cursor.data.slice? p.cursor.offset (p.cursor.offset + length) = none := by
      rw [Bytes.slice?, if_neg]
      rw [h.length_eq]
      omega
    rw [hslice]
    rfl
  | some split =>
    obtain ⟨body, rest⟩ := split
    obtain ⟨rfl, rfl⟩ := Bytes.splitAt?_eq_some.mp hsplit
    have hrest := List.suffix_append body rest
    have hskip := skipSpace_suffix rest
    have hat := (h.seek hrest).seek hskip
    rw [h.seek_seek hrest hskip] at hat
    have hafter : (p.cursor.seek rest).skipSpace = p.cursor.seek (skipSpace rest) := by
      rw [Cursor.skipSpace, Cursor.rest_seek (h.rest_eq ▸ hrest), Cursor.seek_seek (h.rest_eq ▸ hrest) hskip]
    have hdrop : (p.cursor.seek (skipSpace rest)).dropTag? (.ofAscii "endstream") = _ :=
      hat.dropTag?_eq (.ofAscii "endstream")
    rw [← Cursor.seek_of_append h.rest_eq, hafter, h.slice?_eq, hdrop]
    simp only [Option.bind_eq_bind, Option.bind_some]
    cases hread : Bytes.dropTag? (.ofAscii "endstream") (skipSpace rest) with
    | none => rfl
    | some after =>
      have hsuffix : after <:+ skipSpace rest := ⟨_, (Bytes.dropTag?_eq_some.mp hread).symm⟩
      have hseek := Cursor.seek_seek (h.rest_eq ▸ hskip.trans hrest) hsuffix
      exact congrArg (fun c => some (body, c)) hseek

theorem At.reads_foundStreamData (h : p.At data) :
    p.Reads (take? (foundStreamData? p.cursor.offset)) (findStreamData? data) := by
  have htail : p.cursor.tail? = some data := by rw [Cursor.tail?, if_pos h.offset_le, ← Cursor.rest, h.rest_eq]
  rw [findStreamData?]
  cases hcut : Bytes.cutAtTag? (.ofAscii "endstream") data with
  | none => exact At.reads_none (take?_eq_none (by simp [foundStreamData?, htail, hcut]))
  | some cut =>
    obtain ⟨body, rest⟩ := cut
    have hdata := Bytes.eq_append_of_cutAtTag? hcut
    have hlength : (body ++ .ofAscii "endstream").length = body.length + 9 := List.length_append
    apply h.reads_take?
    · simp only [foundStreamData?, htail, hcut, Option.bind_eq_bind, Option.bind_some, Option.map_some]
      rw [Cursor.seek_of_append (h.rest_eq.trans hdata), hlength, Nat.add_assoc]
    · rintro _ _ ⟨⟩
      exact ⟨_, hdata.symm⟩

theorem At.reads_readStreamData (h : p.At data) (d : Dict) :
    p.Reads (readStreamData d p.cursor.offset) (readStreamData? d data) := by
  unfold readStreamData readStreamData?
  cases d.getAs? Object.nat? "Length" with
  | none => exact h.reads_foundStreamData
  | some length =>
    have hsized := h.sizedStreamData?_eq length
    refine Reads.orElse (h.reads_take? hsized ?_) ?_ h.reads_foundStreamData
    · exact fun _ _ hread => suffix_of_readSizedStreamData? hread
    · intro (hnone : readSizedStreamData? length data = none)
      exact take?_eq_none (by rw [hsized, hnone]; rfl)

theorem At.reads_readStream (h : p.At data) (hmode : p.inContent = false) (d : Dict) :
    p.Reads (readStream d) (readAfterDict? p.toMode d data) := by
  have hskip := h.reads_skipSpace
  rw [readAfterDict?, if_neg (Bool.eq_false_iff.mp hmode)]
  cases hdrop : Bytes.dropTag? (.ofAscii "stream") (skipSpace data) with
  | none =>
    have hat := h.seek (skipSpace_suffix data)
    -- the space is not part of the dictionary, so the parser ends where it began, before the place it has looked at
    refine h.reads_self ?_
    calc readStream d p = _ := run_bind_some rfl
      _ = _ := run_bind_some hskip.2
      _ = _ := run_bind_some (hat.succeeds_tag_eq_false hdrop)
  | some rest =>
    refine reads_offset_bind (h.bind_some hskip fun hat => hat.reads_if_tag ?found ?missing)
    case found =>
      intro after hafter hat
      obtain rfl : after = rest := by
        rw [hafter, Bytes.dropTag?_append] at hdrop
        exact Option.some.inj hdrop
      refine hat.bind_some hat.reads_skipEndOfLine fun hat => ?_
      have hdata := hat.reads_readStreamData d
      simp only
      cases hread : readStreamData? d (skipEndOfLine after) with
      | none =>
        rw [hread] at hdata
        exact reads_offset_bind hdata.bind_none
      | some read =>
        rw [hread] at hdata
        exact reads_offset_bind (hat.bind_some hdata fun hat => hat.reads_self rfl)
    case missing =>
      intro hmissing
      rw [hmissing] at hdrop
      cases hdrop

theorem At.reads_afterDict (h : p.At data) (d : Dict) :
    p.Reads (if p.inContent then pure (.dict d) else readStream d) (readAfterDict? p.toMode d data) := by
  cases hmode : p.inContent with
  | true =>
    rw [readAfterDict?, if_pos hmode]
    exact h.reads_pure (Object.dict d)
  | false => exact h.reads_readStream hmode d

/-! ## Objects -/

theorem At.reads_readNumeric (h : p.At data) : p.Reads readNumeric (readNumeric? p.toMode data) := by
  have hnumber := h.map h.reads_readNumber Object.number
  refine reads_bind_of_self (a := p) rfl ?_
  unfold readNumeric?
  cases hmode : p.inContent with
  | true => exact hnumber
  | false =>
    have hreference := h.map h.reads_readReference Object.ref
    have hnone (hread : (readReference? data).map (fun (target, rest) => (Object.ref target, rest)) = none) :
        (Object.ref <$> readReference) p = (none, p) := by
      have hrestoring := h.reads_readReference
      rw [Option.map_eq_none_iff.mp hread] at hrestoring
      exact run_bind_none hrestoring.restoring_eq_none
    have heither := hreference.orElse hnone hnumber
    cases hread : readReference? data with
    | none =>
      rw [hread] at heither
      exact heither
    | some read =>
      rw [hread] at heither
      exact heither

theorem ReadsAs.readAngle_dict (hread : ReadsAs p.toMode (p.depth + 1) m read) (h : p.At (60 :: 60 :: data)) :
    p.Reads (readAngle m)
      ((readEntries? read (data.length + 1) .empty data).bind fun (d, rest) => readAfterDict? p.toMode d rest) := by
  have hlook : Parse.succeeds (see? (·.dropTag? [60, 60])) p = (some true, p) := by
    rw [succeeds_see?_eq, h.dropTag?_eq]
    rfl
  have hdeeper := h.deeper
  refine reads_bind_of_self hlook (h.bind (Reads.nested (hread.readDict hdeeper rfl rfl)) fun d rest _ hat => ?_)
  exact reads_bind_of_self (a := p.seek rest) rfl (hat.reads_afterDict d)

theorem At.reads_readAngle_hex (h : p.At (60 :: data)) (hother : ∀ rest, data ≠ 60 :: rest) :
    p.Reads (readAngle m) ((readHex? p.toMode data).map fun (s, rest) => (Object.str s, rest)) := by
  have hdrop : Bytes.dropTag? [60, 60] (60 :: data) = none :=
    Bytes.dropTag?_eq_none fun rest hdata => hother rest (List.cons.inj hdata).2
  have hlook : Parse.succeeds (see? (·.dropTag? [60, 60])) p = (some false, p) := by
    rw [succeeds_see?_eq, h.dropTag?_eq, hdrop]
    rfl
  exact reads_bind_of_self hlook (h.map h.reads_readHex Object.str)

/-- However many containers are open, there is fuel for as many as may still be opened. -/
theorem readsAs_readNested (mode : Mode) (fuel : Nat) {depth : Nat} (hfuel : maxNesting + 2 ≤ fuel + depth) :
    ReadsAs mode depth (readNested fuel) (readNested? mode (maxNesting + 1 - depth)) := by
  induction fuel generalizing depth with
  | zero =>
    intro p data _ _ _
    rw [Nat.sub_eq_zero_of_le (by omega)]
    exact reads_failure p
  | succ fuel ih =>
    -- one container more is open where the items and entries are read
    have hread := @ih (depth + 1) (by omega)
    rintro p data h rfl rfl
    refine Reads.restoring (reads_bind_of_self (a := p) rfl ?_)
    by_cases hdepth : maxNesting < p.depth
    · rw [if_pos hdepth, Nat.sub_eq_zero_of_le hdepth]
      exact (reads_failure p).bind_none
    · obtain ⟨levels, hlevels⟩ : ∃ levels, maxNesting + 1 - p.depth = levels + 1 :=
        ⟨maxNesting - p.depth, by omega⟩
      have hnested : maxNesting + 1 - (p.depth + 1) = levels := by omega
      rw [if_neg hdepth, hlevels, readNested?]
      rw [hnested] at hread
      refine h.bind_some h.reads_skipSpace fun hat => ?_
      generalize skipSpace data = data at hat ⊢
      have hpeek : see? (·.peekByte?) (p.seek data) = (data.head?, p.seek data) := by
        rw [see?_eq, Cursor.peekByte?, hat.rest_eq]
      cases data with
      | nil => exact Reads.bind_none (At.reads_none hpeek)
      | cons b rest =>
        refine reads_bind_of_self hpeek ?_
        simp only
        by_cases hname : b = 47
        · rw [if_pos hname, if_pos hname]
          exact hat.map hat.reads_readName Object.name
        rw [if_neg hname, if_neg hname]
        by_cases hliteral : b = 40
        · subst hliteral
          rw [if_pos rfl, if_pos rfl]
          have hstring := hat.map hat.reads_readLiteral Object.str
          rwa [Option.map_map] at hstring
        rw [if_neg hliteral, if_neg hliteral]
        by_cases harray : b = 91
        · subst harray
          rw [if_pos rfl, if_pos rfl]
          have hdeeper := hat.deeper
          exact Reads.nested (hread.readArray hdeeper rfl rfl)
        rw [if_neg harray, if_neg harray]
        by_cases hangle : b = 60
        · subst hangle
          rw [if_pos rfl, if_pos rfl]
          split
          · exact ReadsAs.readAngle_dict hread hat
          · rename_i hother
            exact hat.reads_readAngle_hex hother
        rw [if_neg hangle, if_neg hangle]
        by_cases hnumber : (b = 43 || b = 45 || b = 46 || isDigit b) = true
        · rw [if_pos hnumber, if_pos hnumber]
          exact hat.reads_readNumeric
        · rw [if_neg hnumber, if_neg hnumber]
          exact hat.reads_readKeyword

theorem At.reads_readObject (h : p.At data) :
    p.Reads readObject (readNested? p.toMode (maxNesting + 1 - p.depth) data) :=
  readsAs_readNested p.toMode _ (Nat.le_add_right _ _) p data h rfl rfl

theorem At.reads_readIndirect (h : p.At data) (howner : p.owner = none) :
    p.Reads readIndirect (readIndirectIn? p.inContent (maxNesting + 1 - p.depth) data) := by
  refine Reads.restoring (h.bind_some h.reads_skipSpace fun hat => ?_)
  refine hat.bind hat.reads_readInteger fun number data _ hat => ?_
  refine hat.bind_some hat.reads_skipSpace fun hat => ?_
  refine hat.bind hat.reads_readInteger fun generation data _ hat => ?_
  refine hat.bind_some hat.reads_skipSpace fun hat => ?_
  refine hat.bind_drop (hat.reads_tag _) fun data _ hat => ?_
  refine reads_see?_bind _ fun target _ => ?_
  have howned := hat.ownedBy target
  refine hat.bind (Reads.owning howner howned.reads_readObject) fun o data _ hat => ?_
  refine hat.bind_some hat.reads_skipSpace fun hat => ?_
  exact hat.bind_some (hat.reads_succeeds_tag _) fun hat => hat.reads_pure (target, o)

theorem at_start (data : Bytes) : At ⟨{}, ⟨data, 0⟩, 0⟩ data := ⟨Nat.zero_le _, rfl⟩

/-- An object is what a parser reads at the start of its data. -/
theorem parseObject?_eq (data : Bytes) : parseObject? data = (readObject ⟨{}, ⟨data, 0⟩, 0⟩).1 :=
  (at_start data).reads_readObject.fst_eq.symm

theorem parseIndirect?_eq (data : Bytes) : parseIndirect? data = (readIndirect ⟨{}, ⟨data, 0⟩, 0⟩).1 :=
  ((at_start data).reads_readIndirect rfl).fst_eq.symm

end Parser

end Folio.Syntax
