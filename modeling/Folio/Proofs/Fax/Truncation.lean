import Folio.Proofs.Fax.Cut

/-!
# Fax data that end early

Data are cut to some of their bytes. The rows that are all there are decoded, and the others are white, wherever
the cut is: in a row or before it the end of the data is noticed (`decodeRows_of_isCut`), and in a marker only zeros
are left, or ends of lines enough.

Main statement: `decodesPadded_iff`. The exception is a marker where rows have tags: if what is left after its first
end of a line is not exactly another end of a line, its tag is taken for that of a row, whose first eight zeros are
no run (`TakesMarkerForRow`).
-/

namespace Folio.Fax

/-! ## Where rows end -/

/-- The bits of some rows from a position on, as in `Encodes`, with the positions at which the rows end. -/
inductive EncodesTo (p : Params) :
    List Bool → List (List Bool) → Nat → List Bool → List Nat → Prop
  | nothing {above : List Bool} {position : Nat} : EncodesTo p above [] position [] []
  | marker {above bits : List Bool} {position : Nat} :
    MarkerCode p.scheme bits → EncodesTo p above [] position (rowFill p position ++ bits) []
  | row {above row sync code rest : List Bool} {rows : List (List Bool)} {position stop : Nat}
      {stops : List Nat} :
    SyncCode p.scheme sync → RowCode above row p.scheme code →
    stop = position + (rowFill p position ++ (sync ++ code)).length →
    EncodesTo p row rows stop rest stops →
    EncodesTo p above (row :: rows) position (rowFill p position ++ (sync ++ (code ++ rest)))
      (stop :: stops)

variable {p : Params} {above row : List Bool} {rows : List (List Bool)} {position : Nat}
  {bits left pad : List Bool} {stops : List Nat}

theorem EncodesTo.length_stops (h : EncodesTo p above rows position bits stops) :
    stops.length = rows.length := by
  induction h with
  | nothing => rfl
  | marker _ => rfl
  | row _ _ _ _ ih => simp [ih]

theorem EncodesTo.le_stops (h : EncodesTo p above rows position bits stops) :
    ∀ stop ∈ stops, position ≤ stop := by
  induction h with
  | nothing => simp
  | marker _ => simp
  | row _ _ hstop _ ih =>
    intro stop hmem
    rcases List.mem_cons.mp hmem with rfl | hmem
    · omega
    · have hle := ih stop hmem
      omega

theorem EncodesTo.le_getLastD (h : EncodesTo p above rows position bits stops) :
    position ≤ stops.getLastD position := by
  rcases List.mem_cons.mp (@List.getLastD_mem_cons _ stops position) with heq | hmem
  · exact heq.ge
  · exact h.le_stops _ hmem

/-- Some rows of which only those are known that end within the given number of bits, and white ones up to the
given count. -/
def rowsUpTo (p : Params) (length count : Nat) (rows : List (List Bool)) (stops : List Nat) :
    List (List Bool) :=
  List.zipWith (fun row stop => if stop ≤ length then row else whiteRow p) rows stops ++
    List.replicate (count - rows.length) (whiteRow p)

variable {length count : Nat}

theorem rowsUpTo_of_lt (hstops : ∀ stop ∈ stops, length < stop) (hlen : stops.length = rows.length)
    (hcount : rows.length ≤ count) : rowsUpTo p length count rows stops = List.replicate count (whiteRow p) := by
  have hzip : List.zipWith (fun row stop => if stop ≤ length then row else whiteRow p) rows stops =
      List.replicate rows.length (whiteRow p) := by
    rw [List.eq_replicate_iff]
    refine ⟨by simp [hlen], fun shown hmem => ?_⟩
    rw [← List.map_uncurry_zip_eq_zipWith] at hmem
    obtain ⟨⟨row, stop⟩, hpair, rfl⟩ := List.mem_map.mp hmem
    exact if_neg (Nat.not_le.mpr (hstops stop (List.of_mem_zip hpair).2))
  rw [rowsUpTo, hzip, List.replicate_append_replicate, Nat.add_sub_cancel' hcount]

theorem rowsUpTo_cons {stop : Nat} (hstop : stop ≤ length) :
    rowsUpTo p length count (row :: rows) (stop :: stops) =
      row :: rowsUpTo p length (count - 1) rows stops := by
  rw [rowsUpTo, rowsUpTo, List.zipWith_cons_cons, if_pos hstop, List.length_cons, Nat.sub_sub,
    Nat.add_comm 1]
  rfl

/-- What is left of the data contains what fills up the byte before a row. -/
theorem exists_aligned (hbegins : bits <+: rowFill p position ++ left)
    (hposition : (position + bits.length) % 8 = 0) :
    ∃ rest, bits = rowFill p position ++ rest ∧ rest <+: left ∧
      (if p.byteAligned then Bits.align bits else bits) = rest := by
  rcases isPrefix_append_iff.mp hbegins with hcut | ⟨rest, rfl, hrest⟩
  · have hshort := hcut.length_lt
    unfold rowFill at hshort
    split at hshort
    · rw [Bits.fill, List.length_replicate] at hshort
      omega
    · exact absurd hshort (Nat.not_lt_zero _)
  · exact ⟨rest, rfl, hrest, align_rowFill hposition⟩

theorem rowFill_zeros (p : Params) (position : Nat) : ∀ b ∈ rowFill p position, b = false := by
  intro b hb
  unfold rowFill at hb
  split at hb
  · exact List.eq_of_mem_replicate hb
  · simp at hb

variable {s : Progress} {fuel steps : Nat}

/-- The decoder stops where only zeros are left after ends of lines, or the end of the data is noticed in the row
after them. -/
theorem decodeRows_of_end (hrows : s.rows ≠ [])
    (hskip : (skipEndOfLines (p.scheme == .mixed) fuel
      (if p.byteAligned then Bits.align s.bits else s.bits)).2 = left)
    (hend : (∀ b ∈ left, b = false) ∨
      ∃ twoDimensional bits, readTag p.scheme left = .ok (twoDimensional, bits) ∧
        s.readRow p.columns fuel twoDimensional bits = .error .unexpectedEnd) :
    decodeRows p fuel steps s = .ok s.rows := by
  subst hskip
  cases steps with
  | zero => rfl
  | succ steps =>
    rcases hend with hzeros | ⟨twoDimensional, bits, htag, hread⟩
    · rw [decodeRows]
      simp [hrows, List.all_eq_true.mpr fun b hb => congrArg (!·) (hzeros b hb)]
    · have hends : Error.endsImage .unexpectedEnd p s.rows = true := by simp [Error.endsImage, hrows]
      exact decodeRows_of_error hends rfl htag hread

/-- The decoder stops at a row that is cut. -/
theorem decodeRows_of_isCut {sync code : List Bool} (hsync : SyncCode p.scheme sync)
    (hcode : RowCode above row p.scheme code) (habove : above.length = p.columns)
    (hrow : row.length = p.columns) (hcolumns : 0 < p.columns) (hbits : s.bits = rowFill p position ++ left)
    (haligned : (if p.byteAligned then Bits.align s.bits else s.bits) = left)
    (hcut : IsCut left (sync ++ code)) (hfuel : s.bits.length < fuel)
    (hreference : s.reference p.columns = referenceOf above) (hrows : s.rows ≠ []) :
    decodeRows p fuel steps s = .ok s.rows := by
  rcases isCut_append_iff.mp hcut with hcutSync | ⟨cut, rfl, hcutCode⟩
  · have hzeros : ∀ b ∈ left, b = false := by
      cases hsync with
      | nothing _ => exact absurd hcutSync not_isCut_nil
      | endOfLine _ _ => exact hcutSync.zeros_of_endOfLine
    apply decodeRows_of_zeros hrows
    rw [hbits]
    exact List.forall_mem_append.mpr ⟨rowFill_zeros p position, hzeros⟩
  · rw [hbits, List.length_append, List.length_append] at hfuel
    have hskip := skipEndOfLines_of_isCut hsync hcode hcutCode (show sync.length ≤ fuel by omega)
    rw [← haligned] at hskip
    apply decodeRows_of_end hrows hskip
    by_cases hnil : cut = []
    · left
      simp [hnil]
    · right
      rw [← hrow]
      exact hcode.readRow_of_isCut (habove.trans hrow.symm) (hrow ▸ hcolumns) hcutCode hnil (hrow ▸ hreference)

/-! ## Markers that are cut -/

/-- Whether a marker is taken for a row: rows have tags, and further ones are expected; after the first end of a
line the tag is followed by eight zeros, but not by an end of a line of eleven zeros. -/
structure TakesMarkerForRow (p : Params) (coded : Nat) (left : List Bool) : Prop where
  mixed : p.scheme = .mixed
  coded_lt : coded < p.rows
  exists_tag : ∃ zeros after, 11 ≤ zeros ∧ left = endOfLine zeros ++ (true :: after) ∧
    List.replicate 8 false <+: after ∧ ¬ endOfLine 11 <+: after

variable {coded : Nat}

theorem not_takesMarkerForRow_of_zeros (h : ∀ b ∈ left, b = false) : ¬ TakesMarkerForRow p coded left := by
  rintro ⟨-, -, zeros, after, -, rfl, -⟩
  have htrue := h true (by simp [endOfLine])
  cases htrue

theorem takesMarkerForRow_iff {zeros : Nat} (hzeros : 11 ≤ zeros) :
    TakesMarkerForRow p coded (endOfLine zeros ++ left) ↔
      p.scheme = .mixed ∧ coded < p.rows ∧
        ∃ after, left = true :: after ∧ List.replicate 8 false <+: after ∧ ¬ endOfLine 11 <+: after := by
  constructor
  · rintro ⟨hmixed, hcoded, others, after, hothers, heq, hafter⟩
    refine ⟨hmixed, hcoded, after, ?_, hafter⟩
    have hskip := congrArg (skipEndOfLine? 0) heq
    rw [skipEndOfLine?_endOfLine hzeros, skipEndOfLine?_endOfLine hothers] at hskip
    exact Option.some.inj hskip
  · rintro ⟨hmixed, hcoded, after, rfl, hafter⟩
    exact ⟨hmixed, hcoded, zeros, after, hzeros, rfl, hafter⟩

theorem rowFill_append_endOfLine (p : Params) (position zeros : Nat) :
    rowFill p position ++ endOfLine zeros = endOfLine ((rowFill p position).length + zeros) := by
  rw [endOfLine, endOfLine, ← List.append_assoc, ← List.replicate_append_replicate]
  congr 2
  exact List.eq_replicate_of_mem (rowFill_zeros p position)

theorem readRun_of_isCut_zeros (h : IsCut bits (List.replicate 8 false)) :
    readRun true bits = .error .unexpectedEnd := by
  have hlength : bits.length < 8 := h.length_lt
  have hzeros : bits = List.replicate bits.length false :=
    List.eq_replicate_of_mem fun b hb => List.eq_of_mem_replicate (h.isPrefix.subset hb)
  generalize bits.length = count at hlength hzeros
  subst hzeros
  interval_cases count <;> rfl

theorem taggedEndOfLine_eq : taggedEndOfLine = true :: endOfLine 11 := by decide

/-- The tag between two ends of lines is skipped only where the second one has eleven zeros and is all there. -/
theorem take_taggedEndOfLine_iff :
    ((true :: left).take 13 == taggedEndOfLine) = true ↔ endOfLine 11 <+: left := by
  rw [beq_iff_eq, taggedEndOfLine_eq, List.take_succ_cons, List.cons.injEq, List.prefix_iff_eq_take]
  exact ⟨fun h => h.2.symm, fun h => ⟨rfl, h.symm⟩⟩

/-- An end of a line is counted without the tag after it, if there is no further end of a line. -/
theorem skipEndOfLines_single (tagged : Bool) {zeros : Nat} (hzeros : 11 ≤ zeros)
    (htag : (left.take 13 == taggedEndOfLine) = false) (hnone : skipEndOfLine? 0 left = none)
    (fuel : Nat) : skipEndOfLines tagged (fuel + 1) (endOfLine zeros ++ left) = (1, left) := by
  rw [skipEndOfLines_endOfLine _ hzeros, htag, Bool.and_false]
  dsimp only
  rw [if_neg Bool.false_ne_true, skipEndOfLines_of_none _ hnone]

/-- Two ends of lines are counted where the tag between them is skipped. -/
theorem one_lt_skipEndOfLines {zeros : Nat} (hzeros : 11 ≤ zeros) (htag : endOfLine 11 <+: left)
    (fuel : Nat) : 1 < (skipEndOfLines true (fuel + 2) (endOfLine zeros ++ (true :: left))).1 := by
  obtain ⟨rest, rfl⟩ := htag
  rw [skipEndOfLines_endOfLine _ hzeros, take_taggedEndOfLine_iff.mpr (List.prefix_append _ _)]
  dsimp only
  rw [if_pos (Bool.true_and true), List.drop_one, List.tail_cons, skipEndOfLines_endOfLine _ (Nat.le_refl 11)]
  exact Nat.succ_lt_succ (Nat.succ_pos _)

/-- The decoder stops after an end of a line where only zeros are left. -/
theorem decodeRows_of_endOfLine {zeros : Nat} (hzeros : 11 ≤ zeros)
    (haligned : (if p.byteAligned then Bits.align s.bits else s.bits) = endOfLine zeros ++ left)
    (hleft : ∀ b ∈ left, b = false) (hrows : s.rows ≠ []) (hfuel : 0 < fuel) :
    decodeRows p fuel steps s = .ok s.rows := by
  obtain ⟨fuel, rfl⟩ : ∃ k, fuel = k + 1 := ⟨fuel - 1, by omega⟩
  have htag : (left.take 13 == taggedEndOfLine) = false := by
    rw [beq_eq_false_iff_ne]
    intro heq
    have htrue : true ∈ left.take 13 := by
      rw [heq]
      decide
    exact Bool.false_ne_true (hleft true (List.mem_of_mem_take htrue)).symm
  have hskip := skipEndOfLines_single (p.scheme == .mixed) hzeros htag
    (skipEndOfLine?_of_zeros hleft 0) fuel
  rw [← haligned] at hskip
  exact decodeRows_of_end hrows (congrArg Prod.snd hskip) (.inl hleft)

/-- The decoder fails at a row that is none, if there must be a further row. -/
theorem decodeRows_eq_error {ends : Nat} {e : Error} {twoDimensional : Bool}
    (hcount : ¬ (p.rows ≠ 0 ∧ p.rows ≤ s.rows.length))
    (hskip : skipEndOfLines (p.scheme == .mixed) fuel
      (if p.byteAligned then Bits.align s.bits else s.bits) = (ends, left))
    (hends : (if p.scheme = .twoDimensional then 0 < ends else 1 < ends) = False)
    (hmore : left.all (!·) = false) (htag : readTag p.scheme left = .ok (twoDimensional, bits))
    (hrow : s.readRow p.columns fuel twoDimensional bits = .error e) (hfails : e.endsImage p s.rows = false) :
    decodeRows p fuel (steps + 1) s = .error e := by
  rw [decodeRows, if_neg hcount]
  simp only [hskip, hends, hmore, decide_false, Bool.and_false, Bool.or_false, Bool.false_eq_true,
    if_false, htag, bind, Except.bind, hrow, hfails]

/-- After the first end of a line of a marker and its tag, the decoder fails or stops. -/
theorem decodeRows_of_tag {first second : Nat} {after rest : List Bool} (hmixed : p.scheme = .mixed)
    (hfirst : 11 ≤ first) (hsecond : 11 ≤ second)
    (haligned : (if p.byteAligned then Bits.align s.bits else s.bits) = endOfLine first ++ (true :: after))
    (hafter : after <+: endOfLine second ++ rest) (hcolumns : 0 < p.columns) (hrows : s.rows ≠ [])
    (hcount : s.rows.length < p.rows) (hfuel : 2 ≤ fuel) :
    decodeRows p fuel (steps + 1) s =
      if List.replicate 8 false <+: after ∧ ¬ endOfLine 11 <+: after then .error .invalidCode
      else .ok s.rows := by
  obtain ⟨fuel, rfl⟩ : ∃ k, fuel = k + 2 := ⟨fuel - 2, by omega⟩
  by_cases hwhole : endOfLine 11 <+: after
  · rw [if_neg fun h => h.2 hwhole]
    apply decodeRows_of_one_lt
    rw [haligned, beq_iff_eq.mpr hmixed]
    exact one_lt_skipEndOfLines hfirst hwhole fuel
  have hskip := skipEndOfLines_single (p.scheme == .mixed) hfirst
    (Bool.eq_false_iff.mpr (mt take_taggedEndOfLine_iff.mp hwhole)) rfl (fuel + 1)
  rw [← haligned] at hskip
  have htag : readTag p.scheme (true :: after) = .ok (false, after) := by
    rw [hmixed]
    rfl
  have hrow {e : Error} (hread : readRun true after = .error e) :
      s.readRow p.columns (fuel + 2) false after = .error e := by
    rw [Progress.readRow, if_neg Bool.false_ne_true, readRuns, if_neg (Nat.not_le.mpr hcolumns), hread]
    rfl
  by_cases hzeros : List.replicate 8 false <+: after
  · rw [if_pos ⟨hzeros, hwhole⟩]
    obtain ⟨more, rfl⟩ := hzeros
    refine decodeRows_eq_error (by omega) hskip ?_ rfl htag (hrow (readRun_zeros more)) ?_
    · simp [hmixed]
    · have hstated : p.rows ≠ 0 := by omega
      simp [Error.endsImage, hstated]
  · rw [if_neg fun h => hzeros h.1]
    have hcut : IsCut after (List.replicate 8 false) := by
      obtain ⟨more, rfl⟩ := Nat.exists_eq_add_of_le (le_trans (by decide : 8 ≤ 11) hsecond)
      rw [endOfLine, ← List.replicate_append_replicate, List.append_assoc, List.append_assoc] at hafter
      refine (isPrefix_append_iff.mp hafter).resolve_right ?_
      rintro ⟨others, rfl, -⟩
      exact hzeros (List.prefix_append _ _)
    apply decodeRows_of_end hrows (congrArg Prod.snd hskip)
    exact .inr ⟨false, after, htag, hrow (readRun_of_isCut_zeros hcut)⟩

/-- What a decoder does with the rest of some data: it fails if a marker is taken for a row, and otherwise it has
the given rows in the end, with white ones up to the stated number. -/
def Finishes (p : Params) (coded : Nat) (left : List Bool) (shown : List (List Bool))
    (result : Except Error (List (List Nat))) : Prop :=
  TakesMarkerForRow p coded left ∧ result = .error .invalidCode ∨
    ¬ TakesMarkerForRow p coded left ∧
      ∃ stored, result = .ok stored ∧ stored ≠ [] ∧ shownRows p stored.reverse = shown

theorem finishes_of_stop (hnot : ¬ TakesMarkerForRow p coded left) (hrows : s.rows ≠ []) :
    Finishes p coded left
      (s.rows.reverse.map (pixels p.columns) ++ List.replicate (p.rows - s.rows.length) (whiteRow p))
      (.ok s.rows) := by
  refine .inr ⟨hnot, s.rows, rfl, hrows, ?_⟩
  rw [shownRows, List.length_reverse]
  rfl

theorem finishes_of_zeros (hzeros : ∀ b ∈ s.bits, b = false) (hrows : s.rows ≠ []) :
    Finishes p coded s.bits
      (s.rows.reverse.map (pixels p.columns) ++ List.replicate (p.rows - s.rows.length) (whiteRow p))
      (decodeRows p fuel steps s) := by
  rw [decodeRows_of_zeros hrows hzeros]
  exact finishes_of_stop (not_takesMarkerForRow_of_zeros hzeros) hrows

/-- The decoder fails or stops where some of a marker is left. -/
theorem MarkerCode.finishes (h : MarkerCode p.scheme bits) (hbegins : left <+: bits ++ pad)
    (hbits : s.bits = rowFill p position ++ left)
    (haligned : (if p.byteAligned then Bits.align s.bits else s.bits) = left) (hcolumns : 0 < p.columns)
    (hrows : s.rows ≠ []) (hcount : s.rows.length < p.rows) (hfuel : s.bits.length < fuel) :
    Finishes p s.rows.length s.bits
      (s.rows.reverse.map (pixels p.columns) ++ List.replicate (p.rows - s.rows.length) (whiteRow p))
      (decodeRows p fuel (steps + 1) s) := by
  obtain ⟨first, second, rest, hfirst, hsecond, heq⟩ := h.exists_eq_append pad
  rw [heq] at hbegins
  rcases isPrefix_append_iff.mp hbegins with hcut | ⟨after, rfl, hafter⟩
  · apply finishes_of_zeros _ hrows
    rw [hbits]
    exact List.forall_mem_append.mpr ⟨rowFill_zeros p position, hcut.zeros_of_endOfLine⟩
  have hlong : 2 ≤ fuel := by
    rw [hbits, List.length_append, List.length_append, endOfLine, List.length_append, List.length_replicate]
      at hfuel
    omega
  rw [← List.append_assoc, rowFill_append_endOfLine] at hbits
  have htakes := @takesMarkerForRow_iff p after s.rows.length ((rowFill p position).length + first) (by omega)
  rw [← hbits] at htakes
  by_cases hmixed : p.scheme = .mixed
  · rw [if_pos (beq_iff_eq.mpr hmixed)] at hafter
    rcases isPrefix_append_iff.mp hafter with hcut | ⟨row, rfl, hrow⟩
    · obtain rfl := isCut_singleton_iff.mp hcut
      rw [decodeRows_of_endOfLine hfirst haligned (by simp) hrows (by omega)]
      refine finishes_of_stop (fun h => ?_) hrows
      obtain ⟨-, -, _, hnil, -⟩ := htakes.mp h
      cases hnil
    · rw [decodeRows_of_tag hmixed hfirst hsecond haligned hrow hcolumns hrows hcount hlong]
      split
      · rename_i hmistaken
        exact .inl ⟨htakes.mpr ⟨hmixed, hcount, row, rfl, hmistaken⟩, rfl⟩
      · rename_i hmistaken
        refine finishes_of_stop (fun h => ?_) hrows
        obtain ⟨-, -, _, hcons, htaken⟩ := htakes.mp h
        cases hcons
        exact hmistaken htaken
  · have hnot : ¬ TakesMarkerForRow p s.rows.length s.bits := fun h => hmixed h.mixed
    have huntagged : (p.scheme == .mixed) = false := beq_eq_false_iff_ne.mpr hmixed
    rw [huntagged, if_neg Bool.false_ne_true, List.nil_append] at hafter
    have hstop : decodeRows p fuel (steps + 1) s = .ok s.rows := by
      rcases isPrefix_append_iff.mp hafter with hcut | ⟨more, rfl, -⟩
      · exact decodeRows_of_endOfLine hfirst haligned hcut.zeros_of_endOfLine hrows (by omega)
      · apply decodeRows_of_one_lt
        obtain ⟨fuel, rfl⟩ : ∃ k, fuel = k + 2 := ⟨fuel - 2, by omega⟩
        rw [haligned, huntagged]
        exact (skipEndOfLines_two hfirst hsecond more).resolve_right fun h => Bool.false_ne_true h.1
    rw [hstop]
    exact finishes_of_stop hnot hrows

/-! ## Decoding -/

/-- After all rows, the decoder fails or stops at what is left. -/
theorem EncodesTo.finishes_nil (h : EncodesTo p above [] position bits []) (hcolumns : 0 < p.columns)
    (hbegins : s.bits <+: bits ++ pad) (hpad : ∀ b ∈ pad, b = false)
    (hposition : (position + s.bits.length) % 8 = 0) (hfuel : s.bits.length < fuel)
    (hsteps : s.bits.length ≤ steps) (hcount : s.rows.length ≤ p.rows) (hrows : s.rows ≠ []) :
    Finishes p s.rows.length s.bits
      (s.rows.reverse.map (pixels p.columns) ++ List.replicate (p.rows - s.rows.length) (whiteRow p))
      (decodeRows p fuel steps s) := by
  cases h with
  | nothing => exact finishes_of_zeros (fun b hb => hpad b (hbegins.subset hb)) hrows
  | @marker _ bits _ hmarker =>
    by_cases hnil : s.bits = []
    · exact finishes_of_zeros (by simp [hnil]) hrows
    rcases Nat.lt_or_ge s.rows.length p.rows with hmore | hdone
    · rw [List.append_assoc] at hbegins
      obtain ⟨left, hbits, hleft, haligned⟩ := exists_aligned hbegins hposition
      have hsome := List.length_pos_iff.mpr hnil
      obtain ⟨steps, rfl⟩ : ∃ k, steps = k + 1 := ⟨steps - 1, by omega⟩
      exact hmarker.finishes hleft hbits haligned hcolumns hrows hmore hfuel
    · have hsome := List.length_pos_iff.mpr hrows
      rw [decodeRows_of_count (by omega)]
      exact finishes_of_stop (fun h => absurd h.coded_lt (by omega)) hrows

/-- The rows that are left are read one after the other, up to one that is cut. -/
theorem EncodesTo.finishes (h : EncodesTo p above rows position bits stops)
    (habove : above.length = p.columns) (hlen : ∀ row ∈ rows, row.length = p.columns)
    (hcolumns : 0 < p.columns) {all : List Bool} (hall : all.length % 8 = 0)
    (hbits : s.bits = all.drop position) (hlength : position + s.bits.length = all.length)
    (hbegins : s.bits <+: bits ++ pad) (hpad : ∀ b ∈ pad, b = false) (hfuel : s.bits.length < fuel)
    (hsteps : s.bits.length ≤ steps) (hreference : s.reference p.columns = referenceOf above)
    (hcount : s.rows.length + rows.length ≤ p.rows)
    (hfirst : s.rows = [] → rows ≠ [] ∧ ∀ stop ∈ stops.head?, stop ≤ all.length) :
    Finishes p (s.rows.length + rows.length) (all.drop (stops.getLastD position))
      (s.rows.reverse.map (pixels p.columns) ++
        rowsUpTo p all.length (p.rows - s.rows.length) rows stops)
      (decodeRows p fuel steps s) := by
  induction h generalizing s steps with
  | @nothing above position =>
    have hnil : EncodesTo p above [] position [] [] := .nothing
    have hfinishes := hnil.finishes_nil hcolumns hbegins hpad (hlength ▸ hall) hfuel hsteps hcount
      fun hrows => (hfirst hrows).1 rfl
    rwa [hbits] at hfinishes
  | @marker above bits position hmarker =>
    have hnil : EncodesTo p above [] position (rowFill p position ++ bits) [] := .marker hmarker
    have hfinishes := hnil.finishes_nil hcolumns hbegins hpad (hlength ▸ hall) hfuel hsteps hcount
      fun hrows => (hfirst hrows).1 rfl
    rwa [hbits] at hfinishes
  | @row above row sync code rest rows position stop stops hsync hcode hstop hrest ih =>
    obtain ⟨hrow, hlen⟩ := List.forall_mem_cons.mp hlen
    rw [List.append_assoc, ← List.append_assoc sync, List.append_assoc (sync ++ code)] at hbegins
    obtain ⟨left, hleft, hbegins, haligned⟩ := exists_aligned hbegins (hlength ▸ hall)
    have hleft_length := congrArg List.length hleft
    rw [List.length_append] at hstop hleft_length
    rw [List.length_cons] at hcount ⊢
    rw [List.getLastD_cons]
    rcases isPrefix_append_iff.mp hbegins with hcut | ⟨next, rfl, hnext⟩
    · -- the row is cut, and all rows after it end after the data
      have hshort := hcut.length_lt
      have hlast := hrest.le_getLastD
      have hrows : s.rows ≠ [] := by
        intro hnil
        have hwithin := (hfirst hnil).2 stop rfl
        omega
      have hafter : ∀ later ∈ stop :: stops, all.length < later := by
        refine List.forall_mem_cons.mpr ⟨by omega, fun later hmem => ?_⟩
        have hlater := hrest.le_stops later hmem
        omega
      have hcounts : (row :: rows).length ≤ p.rows - s.rows.length := by
        rw [List.length_cons]
        omega
      rw [rowsUpTo_of_lt hafter (congrArg (· + 1) hrest.length_stops) hcounts,
        decodeRows_of_isCut hsync hcode habove hrow hcolumns hleft haligned hcut hfuel hreference hrows,
        List.drop_eq_nil_of_le (by omega)]
      exact finishes_of_stop (not_takesMarkerForRow_of_zeros (by simp)) hrows
    · rw [List.length_append] at hleft_length
      have hpos := hcode.opensWithin.length_pos
      have hcode_length : (sync ++ code).length = sync.length + code.length := List.length_append
      have hcode_fuel : (sync ++ code).length < fuel := by omega
      obtain ⟨steps, rfl⟩ : ∃ k, steps = k + 1 := ⟨steps - 1, by omega⟩
      obtain ⟨stored, hstores, hstored, hread⟩ := decodeRows_of_rowCode hsync hcode habove hrow hcolumns
        (haligned.trans (List.append_assoc _ _ _)) hcode_fuel hreference (by omega)
      have hnext_bits : next = all.drop stop := by
        rw [hstop, ← List.drop_drop, ← hbits, hleft, ← List.append_assoc, ← List.length_append, List.drop_left]
      have hnext_length : stop + next.length = all.length := by omega
      have hnext_fuel : next.length < fuel := by omega
      have hnext_steps : next.length ≤ steps := by omega
      have hnext_count : (stored :: s.rows).length + rows.length ≤ p.rows := by
        rw [List.length_cons]
        omega
      have hfinishes := @ih ⟨next, stored :: s.rows⟩ steps hrow hlen hnext_bits hnext_length hnext
        hnext_fuel hnext_steps hstored hnext_count fun h => absurd h (List.cons_ne_nil _ _)
      rw [hread, rowsUpTo_cons (by omega)]
      simpa only [List.reverse_cons, List.map_append, List.append_assoc, List.map_singleton,
        hstores.pixels hrow, List.length_cons, Nat.sub_sub, Nat.add_assoc, Nat.add_comm 1,
        List.singleton_append] using hfinishes

end Folio.Fax
