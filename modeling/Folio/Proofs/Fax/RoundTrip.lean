import Folio.Proofs.Fax.Encoding
import Folio.Proofs.Fax.Image

/-!
# Decoding encoded fax data

Main statements: the data of some rows are decoded to an image that shows the rows, in every scheme,
whichever bits the encoder has chosen.
-/

namespace Folio.Fax

variable {p : Params} {above row : List Bool} {rows : List (List Bool)} {position : Nat}

/-! ## The bits around a row -/

/-- The decoder skips what comes before the next row. -/
theorem align_rowFill {bits : List Bool}
    (h : (position + (rowFill p position ++ bits).length) % 8 = 0) :
    (if p.byteAligned then Bits.align (rowFill p position ++ bits) else rowFill p position ++ bits) =
      bits := by
  unfold rowFill at h ⊢
  by_cases haligned : p.byteAligned = true
  · rw [if_pos haligned] at h ⊢
    rw [List.length_append] at h
    have hfill : (Bits.fill position).length = (8 - position % 8) % 8 := List.length_replicate
    have hdrop : (Bits.fill position ++ bits).length % 8 = (Bits.fill position).length := by
      rw [List.length_append]
      omega
    rw [if_pos haligned, Bits.align, hdrop, List.drop_left]
  · rw [if_neg haligned, if_neg haligned, List.nil_append]

theorem RowCode.opensWithin {scheme : Scheme} {code : List Bool} (h : RowCode above row scheme code) :
    OpensWithin 9 code := by
  cases h with
  | runs h => exact h.opensWithin.mono (by decide)
  | modes h => exact h.opensWithin.mono (by decide)
  | taggedRuns h => exact h.opensWithin.cons true
  | taggedModes h => exact h.opensWithin.cons false

theorem OpensWithin.length_pos {count : Nat} {bits : List Bool} (h : OpensWithin count bits) :
    0 < bits.length :=
  List.length_pos_of_mem (List.mem_of_mem_take h)

theorem OpensWithin.not_all_false {count : Nat} {bits : List Bool} (h : OpensWithin count bits) :
    bits.all (!·) = false := by
  rw [List.all_eq_false]
  exact ⟨true, List.mem_of_mem_take h, by decide⟩

theorem skipEndOfLines_of_none (tagged : Bool) {bits : List Bool}
    (h : skipEndOfLine? 0 bits = none) (fuel : Nat) :
    skipEndOfLines tagged fuel bits = (0, bits) := by
  cases fuel with
  | zero => rfl
  | succ fuel => rw [skipEndOfLines, h]

theorem RowCode.skipEndOfLines_eq {scheme : Scheme} {code : List Bool}
    (h : RowCode above row scheme code) (tagged : Bool) (fuel : Nat) (rest : List Bool) :
    skipEndOfLines tagged fuel (code ++ rest) = (0, code ++ rest) := by
  refine skipEndOfLines_of_none tagged (skipEndOfLine?_of_opens ?_) fuel
  exact (h.opensWithin.append rest).mono (by decide)

/-- A tag and a row are not taken for a tag and the end of a line. -/
theorem RowCode.take_ne {code : List Bool} (h : RowCode above row .mixed code) (rest : List Bool) :
    ((code ++ rest).take 13 == taggedEndOfLine) = false := by
  rw [beq_eq_false_iff_ne]
  intro heq
  cases h with
  | @taggedRuns bits h =>
    have hopens : true ∈ (bits ++ rest).take 8 := h.opensWithin.append rest
    have hzeros : (bits ++ rest).take 8 = List.replicate 8 false := by
      rw [List.cons_append, List.take_succ_cons] at heq
      rw [show 8 = min 8 12 from rfl, ← List.take_take, List.tail_eq_of_cons_eq heq]
      rfl
    rw [hzeros] at hopens
    exact absurd hopens (by decide)
  | taggedModes h => exact Bool.false_ne_true (List.head_eq_of_cons_eq heq)

theorem skipEndOfLines_endOfLine {zeros fuel : Nat} (tagged : Bool) (h : 11 ≤ zeros)
    (bits : List Bool) :
    skipEndOfLines tagged (fuel + 1) (endOfLine zeros ++ bits) =
      let after := if tagged && bits.take 13 == taggedEndOfLine then bits.drop 1 else bits
      ((skipEndOfLines tagged fuel after).1 + 1, (skipEndOfLines tagged fuel after).2) := by
  rw [skipEndOfLines, skipEndOfLine?_endOfLine h]

/-- Before a row there is at most one end of a line, and none where it would be a marker. -/
theorem skipEndOfLines_sync {scheme : Scheme} {sync code : List Bool} (hsync : SyncCode scheme sync)
    (hcode : RowCode above row scheme code) {fuel : Nat} (hfuel : sync.length ≤ fuel)
    (rest : List Bool) :
    ∃ ends, skipEndOfLines (scheme == .mixed) fuel (sync ++ (code ++ rest)) = (ends, code ++ rest) ∧
      (if scheme = .twoDimensional then 0 < ends else 1 < ends) = False := by
  cases hsync with
  | nothing _ =>
    refine ⟨0, hcode.skipEndOfLines_eq _ _ rest, ?_⟩
    split <;> simp
  | @endOfLine zeros hscheme hzeros =>
    have hpos : 0 < fuel := by
      rw [endOfLine, List.length_append, List.length_singleton] at hfuel
      omega
    obtain ⟨fuel, rfl⟩ : ∃ k, fuel = k + 1 := ⟨fuel - 1, by omega⟩
    have huntagged : ((scheme == .mixed) && (code ++ rest).take 13 == taggedEndOfLine) = false := by
      by_cases hmixed : scheme = .mixed
      · subst hmixed
        rw [hcode.take_ne, Bool.and_false]
      · rw [beq_eq_false_iff_ne.mpr hmixed, Bool.false_and]
    refine ⟨1, ?_, ?_⟩
    · rw [skipEndOfLines_endOfLine _ hzeros, huntagged]
      dsimp only
      rw [if_neg Bool.false_ne_true, hcode.skipEndOfLines_eq]
    · rw [if_neg hscheme]
      exact eq_false (Nat.lt_irrefl 1)

/-! ## Decoding -/

theorem RunsCode.readRow_eq {bits : List Bool} (h : RunsCode true (runs row) bits)
    (hrow : 0 < row.length) (s : Progress) {fuel : Nat} (hfuel : bits.length < fuel)
    (rest : List Bool) :
    ∃ stored, s.readRow row.length fuel false (bits ++ rest) = .ok (stored, rest) ∧
      Stores stored row := by
  obtain ⟨stored, hread, hstores⟩ := h.exists_stores hrow hfuel rest
  refine ⟨stored.reverse, ?_, hstores⟩
  rw [Progress.readRow, if_neg Bool.false_ne_true, hread]
  rfl

theorem ModesCode.readRow_eq {bits : List Bool} (h : ModesCode above row none bits)
    (hlen : above.length = row.length) {s : Progress}
    (hreference : s.reference row.length = referenceOf above) {fuel : Nat}
    (hfuel : bits.length < fuel) (rest : List Bool) :
    ∃ stored, s.readRow row.length fuel true (bits ++ rest) = .ok (stored, rest) ∧
      Stores stored row := by
  obtain ⟨stored, hread, hstores⟩ := h.exists_stores hlen hfuel rest
  refine ⟨stored.reverse, ?_, hstores⟩
  rw [Progress.readRow, if_pos rfl, hreference, hread]
  rfl

/-- A row is read after its tag, however it is coded. -/
theorem RowCode.readRow_eq {scheme : Scheme} {code : List Bool} (h : RowCode above row scheme code)
    (hlen : above.length = row.length) (hrow : 0 < row.length) {s : Progress}
    (hreference : s.reference row.length = referenceOf above) {fuel : Nat}
    (hfuel : code.length < fuel) (rest : List Bool) :
    ∃ twoDimensional bits, readTag scheme (code ++ rest) = .ok (twoDimensional, bits) ∧
      ∃ stored, s.readRow row.length fuel twoDimensional bits = .ok (stored, rest) ∧
        Stores stored row := by
  cases h with
  | runs h => exact ⟨false, _, rfl, h.readRow_eq hrow s hfuel rest⟩
  | modes h => exact ⟨true, _, rfl, h.readRow_eq hlen hreference hfuel rest⟩
  | taggedRuns h => exact ⟨false, _, rfl, h.readRow_eq hrow s (Nat.lt_of_succ_lt hfuel) rest⟩
  | taggedModes h =>
    exact ⟨true, _, rfl, h.readRow_eq hlen hreference (Nat.lt_of_succ_lt hfuel) rest⟩

/-- The decoder stops at a marker. -/
theorem decodeRows_of_marked {fuel steps ends : Nat} {bits : List Bool} {s : Progress}
    (hskip : skipEndOfLines (p.scheme == .mixed) fuel
      (if p.byteAligned then Bits.align s.bits else s.bits) = (ends, bits))
    (hends : if p.scheme = .twoDimensional then 0 < ends else 1 < ends) :
    decodeRows p fuel (steps + 1) s = .ok s.rows := by
  rw [decodeRows]
  by_cases hcount : p.rows ≠ 0 ∧ p.rows ≤ s.rows.length
  · rw [if_pos hcount]
  · rw [if_neg hcount]
    simp only [hskip, hends, decide_true, Bool.true_or, if_true]

/-- The decoder stops after two ends of lines in every scheme. -/
theorem decodeRows_of_one_lt {fuel steps : Nat} {s : Progress}
    (h : 1 < (skipEndOfLines (p.scheme == .mixed) fuel
      (if p.byteAligned then Bits.align s.bits else s.bits)).1) :
    decodeRows p fuel (steps + 1) s = .ok s.rows := by
  refine decodeRows_of_marked rfl ?_
  split <;> omega

/-- The decoder reads a row. -/
theorem decodeRows_of_row {fuel steps ends : Nat} {bits bits' rest : List Bool} {s : Progress}
    {twoDimensional : Bool} {stored : List Nat}
    (hcount : ¬ (p.rows ≠ 0 ∧ p.rows ≤ s.rows.length))
    (hskip : skipEndOfLines (p.scheme == .mixed) fuel
      (if p.byteAligned then Bits.align s.bits else s.bits) = (ends, bits))
    (hends : (if p.scheme = .twoDimensional then 0 < ends else 1 < ends) = False)
    (hmore : bits.all (!·) = false)
    (htag : readTag p.scheme bits = .ok (twoDimensional, bits'))
    (hrow : s.readRow p.columns fuel twoDimensional bits' = .ok (stored, rest)) :
    decodeRows p fuel (steps + 1) s = decodeRows p fuel steps ⟨rest, stored :: s.rows⟩ := by
  rw [decodeRows, if_neg hcount]
  simp only [hskip, hends, hmore, decide_false, Bool.and_false, Bool.or_false, Bool.false_eq_true,
    if_false, htag, bind, Except.bind, hrow]

/-- The decoder reads a row of which the bits are all there, and then refers to it. -/
theorem decodeRows_of_rowCode {sync code rest : List Bool} {s : Progress} {fuel : Nat}
    (hsync : SyncCode p.scheme sync) (hcode : RowCode above row p.scheme code)
    (habove : above.length = p.columns) (hrow : row.length = p.columns) (hcolumns : 0 < p.columns)
    (hbits : (if p.byteAligned then Bits.align s.bits else s.bits) = sync ++ (code ++ rest))
    (hfuel : (sync ++ code).length < fuel) (hreference : s.reference p.columns = referenceOf above)
    (hcount : ¬ (p.rows ≠ 0 ∧ p.rows ≤ s.rows.length)) :
    ∃ stored, Stores stored row ∧ toReference p.columns stored = referenceOf row ∧
      ∀ steps, decodeRows p fuel (steps + 1) s = decodeRows p fuel steps ⟨rest, stored :: s.rows⟩ := by
  rw [List.length_append] at hfuel
  have hsync_fuel : sync.length ≤ fuel := by omega
  have hcode_fuel : code.length < fuel := by omega
  obtain ⟨ends, hskip, hends⟩ := skipEndOfLines_sync hsync hcode hsync_fuel rest
  rw [← hbits] at hskip
  obtain ⟨twoDimensional, bits', htag, stored, hread, hstores⟩ :=
    hcode.readRow_eq (habove.trans hrow.symm) (hrow ▸ hcolumns) (hrow ▸ hreference) hcode_fuel rest
  rw [hrow] at hread
  have hmore := (hcode.opensWithin.append rest).not_all_false
  refine ⟨stored, hstores, ?_, fun steps => decodeRows_of_row hcount hskip hends hmore htag hread⟩
  rw [referenceOf, hrow]
  exact hstores.toReference hrow

/-- The decoder stops at what is no row, if that just ends the image. -/
theorem decodeRows_of_error {fuel steps ends : Nat} {bits bits' : List Bool} {s : Progress}
    {twoDimensional : Bool} {e : Error} (hends : e.endsImage p s.rows = true)
    (hskip : skipEndOfLines (p.scheme == .mixed) fuel
      (if p.byteAligned then Bits.align s.bits else s.bits) = (ends, bits))
    (htag : readTag p.scheme bits = .ok (twoDimensional, bits'))
    (hrow : s.readRow p.columns fuel twoDimensional bits' = .error e) :
    decodeRows p fuel (steps + 1) s = .ok s.rows := by
  rw [decodeRows]
  simp only [hskip, htag, bind, Except.bind, hrow, hends, if_true, ite_self]

/-- Of two ends of lines that follow each other the second one is counted too, or the bit between
them is not skipped. -/
theorem skipEndOfLines_two {tagged : Bool} {first second fuel : Nat} (hfirst : 11 ≤ first)
    (hsecond : 11 ≤ second) (rest : List Bool) :
    1 < (skipEndOfLines tagged (fuel + 2)
      (endOfLine first ++ ((if tagged then [true] else []) ++ (endOfLine second ++ rest)))).1 ∨
    tagged = true ∧ skipEndOfLines tagged (fuel + 2)
      (endOfLine first ++ (true :: (endOfLine second ++ rest))) =
        (1, true :: (endOfLine second ++ rest)) := by
  rw [skipEndOfLines_endOfLine _ hfirst, skipEndOfLines_endOfLine _ hfirst]
  have htwo : 1 < (skipEndOfLines tagged (fuel + 1) (endOfLine second ++ rest)).1 + 1 := by
    rw [skipEndOfLines_endOfLine _ hsecond]
    exact Nat.succ_lt_succ (Nat.succ_pos _)
  cases tagged with
  | false => exact .inl htwo
  | true =>
    dsimp only
    rw [if_pos rfl, List.singleton_append]
    by_cases htagged : (true && (true :: (endOfLine second ++ rest)).take 13 == taggedEndOfLine) = true
    · rw [if_pos htagged]
      exact .inl htwo
    · rw [if_neg htagged, skipEndOfLines_of_none true rfl]
      exact .inr ⟨rfl, rfl⟩

theorem MarkerCode.length_pos {scheme : Scheme} {bits : List Bool} (h : MarkerCode scheme bits) :
    0 < bits.length := by
  cases h with
  | block => decide
  | returnToControl => simp [markerLine, endOfLine]

/-- Every marker begins with two ends of lines, with a tag between them where rows have tags. -/
theorem MarkerCode.exists_eq_append {scheme : Scheme} {bits : List Bool} (h : MarkerCode scheme bits)
    (pad : List Bool) :
    ∃ first second rest, 11 ≤ first ∧ 11 ≤ second ∧
      bits ++ pad = endOfLine first ++
        ((if scheme == .mixed then [true] else []) ++ (endOfLine second ++ rest)) := by
  cases h with
  | block => exact ⟨11, 11, pad, Nat.le_refl 11, Nat.le_refl 11, by simp⟩
  | @returnToControl _ first second more _ hfirst hsecond _ =>
    refine ⟨first, second, (if scheme = .mixed then [true] else []) ++
      (more.flatMap (markerLine scheme) ++ pad), hfirst, hsecond, ?_⟩
    simp [markerLine]

/-- The decoder stops at a marker. Where the second end of a line has more zeros than a tag allows
for, it is read as a row instead, which cannot be one. -/
theorem MarkerCode.decodeRows_eq {bits pad : List Bool} (h : MarkerCode p.scheme bits)
    {fuel steps : Nat} {s : Progress}
    (hbits : (if p.byteAligned then Bits.align s.bits else s.bits) = bits ++ pad)
    (hcolumns : 0 < p.columns) (hrows : s.rows ≠ []) (hcount : p.rows = 0) (hfuel : 2 ≤ fuel) :
    decodeRows p fuel (steps + 1) s = .ok s.rows := by
  obtain ⟨fuel, rfl⟩ : ∃ k, fuel = k + 2 := ⟨fuel - 2, by omega⟩
  obtain ⟨first, second, rest, hfirst, hsecond, heq⟩ := h.exists_eq_append pad
  rw [heq] at hbits
  have htwo := @skipEndOfLines_two (p.scheme == .mixed) first second fuel hfirst hsecond rest
  rcases htwo with htwo | ⟨htagged, hone⟩
  · rw [← hbits] at htwo
    exact decodeRows_of_one_lt htwo
  · rw [if_pos htagged, List.singleton_append] at hbits
    rw [← hbits] at hone
    have htag : readTag p.scheme (true :: (endOfLine second ++ rest)) =
        .ok (false, endOfLine second ++ rest) := by
      rw [beq_iff_eq.mp htagged]
      rfl
    have hrow : s.readRow p.columns (fuel + 2) false (endOfLine second ++ rest) =
        .error .invalidCode := by
      rw [Progress.readRow, if_neg Bool.false_ne_true, readRuns, if_neg (Nat.not_le.mpr hcolumns),
        readRun_endOfLine (le_trans (by decide) hsecond)]
      rfl
    have hends : Error.endsImage .invalidCode p s.rows = true := by
      simp [Error.endsImage, hcount, hrows]
    exact decodeRows_of_error hends hone htag hrow

/-- The decoder stops at the stated number of rows. -/
theorem decodeRows_of_count {fuel steps : Nat} {s : Progress}
    (hcount : p.rows ≠ 0 ∧ p.rows ≤ s.rows.length) : decodeRows p fuel steps s = .ok s.rows := by
  cases steps with
  | zero => rfl
  | succ steps => rw [decodeRows, if_pos hcount]

/-- The decoder stops where only zeros are left. -/
theorem decodeRows_of_zeros {fuel steps : Nat} {s : Progress} (hrows : s.rows ≠ [])
    (hzeros : ∀ b ∈ s.bits, b = false) : decodeRows p fuel steps s = .ok s.rows := by
  cases steps with
  | zero => rfl
  | succ steps =>
    have haligned : ∀ b ∈ if p.byteAligned then Bits.align s.bits else s.bits, b = false := by
      intro b hb
      split at hb
      · exact hzeros b (List.mem_of_mem_drop hb)
      · exact hzeros b hb
    have hskip := skipEndOfLines_of_none (p.scheme == .mixed)
      (skipEndOfLine?_of_zeros haligned 0) fuel
    have hall : (if p.byteAligned then Bits.align s.bits else s.bits).all (!·) = true := by
      rw [List.all_eq_true]
      intro b hb
      rw [haligned b hb]
      rfl
    rw [decodeRows]
    split
    · rfl
    · simp [hskip, hall, hrows]

theorem Encodes.decodeRows_nil {bits pad : List Bool} (h : Encodes p above [] position bits)
    (hcolumns : 0 < p.columns) {s : Progress} {fuel steps : Nat} (hbits : s.bits = bits ++ pad)
    (hpad : ∀ b ∈ pad, b = false) (hposition : (position + s.bits.length) % 8 = 0)
    (hfuel : s.bits.length < fuel) (hcount : p.rows = 0 ∨ p.rows = s.rows.length)
    (hrows : s.rows ≠ []) : decodeRows p fuel steps s = .ok s.rows := by
  by_cases hzero : p.rows = 0
  · cases h with
    | nothing => exact decodeRows_of_zeros hrows (hbits ▸ hpad)
    | @marker _ bits _ hmarker =>
      rw [List.append_assoc] at hbits
      have haligned := align_rowFill (hbits ▸ hposition)
      rw [← hbits] at haligned
      cases steps with
      | zero => rfl
      | succ steps =>
        have hpos := hmarker.length_pos
        have hlength := congrArg List.length hbits
        rw [List.length_append, List.length_append] at hlength
        exact hmarker.decodeRows_eq haligned hcolumns hrows hzero (by omega)
  · exact decodeRows_of_count ⟨hzero, (hcount.resolve_left hzero).le⟩

/-- The rows that are left are read one after the other. -/
theorem Encodes.decodeRows_eq {bits pad : List Bool} (h : Encodes p above rows position bits)
    (habove : above.length = p.columns) (hlen : ∀ row ∈ rows, row.length = p.columns)
    (hcolumns : 0 < p.columns) {s : Progress} {fuel steps : Nat}
    (hbits : s.bits = bits ++ pad) (hpad : ∀ b ∈ pad, b = false)
    (hposition : (position + s.bits.length) % 8 = 0) (hfuel : s.bits.length < fuel)
    (hsteps : s.bits.length ≤ steps) (hreference : s.reference p.columns = referenceOf above)
    (hcount : p.rows = 0 ∨ p.rows = s.rows.length + rows.length)
    (hsome : rows = [] → s.rows ≠ []) :
    ∃ stored, decodeRows p fuel steps s = .ok (stored.reverse ++ s.rows) ∧
      List.Forall₂ Stores stored rows := by
  induction h generalizing s steps with
  | @nothing above position =>
    have hnil : Encodes p above [] position [] := .nothing
    refine ⟨[], ?_, .nil⟩
    exact hnil.decodeRows_nil hcolumns hbits hpad hposition hfuel hcount (hsome rfl)
  | @marker above bits position hmarker =>
    have hnil : Encodes p above [] position (rowFill p position ++ bits) := .marker hmarker
    refine ⟨[], ?_, .nil⟩
    exact hnil.decodeRows_nil hcolumns hbits hpad hposition hfuel hcount (hsome rfl)
  | @row above row sync code rest rows position hsync hcode hrest ih =>
    obtain ⟨hrow, hlen⟩ := List.forall_mem_cons.mp hlen
    rw [List.append_assoc, List.append_assoc, List.append_assoc] at hbits
    have haligned := align_rowFill (hbits ▸ hposition)
    rw [← hbits] at haligned
    have hlength := congrArg List.length hbits
    simp only [List.length_append] at hlength
    have hpos := hcode.opensWithin.length_pos
    obtain ⟨steps, rfl⟩ : ∃ k, steps = k + 1 := ⟨steps - 1, by omega⟩
    have hnot : ¬ (p.rows ≠ 0 ∧ p.rows ≤ s.rows.length) := by
      rw [List.length_cons] at hcount
      omega
    have hcode_fuel : (sync ++ code).length < fuel := by
      rw [List.length_append]
      omega
    obtain ⟨stored, hstores, hstored, hread⟩ := decodeRows_of_rowCode hsync hcode habove hrow hcolumns
      haligned hcode_fuel hreference hnot
    let next : Progress := ⟨rest ++ pad, stored :: s.rows⟩
    have hnext_length : next.bits.length = rest.length + pad.length := List.length_append
    have hnext_position :
        (position + (rowFill p position ++ (sync ++ code)).length + next.bits.length) % 8 = 0 := by
      rw [← hposition, hnext_length, hlength, List.length_append, List.length_append]
      congr 1
      omega
    have hnext_count : p.rows = 0 ∨ p.rows = next.rows.length + rows.length := by
      simp only [next, List.length_cons] at hcount ⊢
      omega
    have hnext_fuel : next.bits.length < fuel := by omega
    have hnext_steps : next.bits.length ≤ steps := by omega
    obtain ⟨later, hdecode, hall⟩ := ih hrow hlen rfl hnext_position hnext_fuel hnext_steps
      hstored hnext_count fun _ => List.cons_ne_nil _ _
    refine ⟨stored :: later, ?_, .cons hstores hall⟩
    rw [hread, hdecode, List.reverse_cons, List.append_assoc]
    rfl

/-- The row above the first one. -/
def whiteRow (p : Params) : List Bool := List.replicate p.columns false

theorem length_whiteRow (p : Params) : (whiteRow p).length = p.columns := List.length_replicate

theorem whiteReference_eq (p : Params) : whiteReference p.columns = referenceOf (whiteRow p) := by
  rw [referenceOf, length_whiteRow, whiteRow, changes_replicate]
  rfl

/-- Data of some rows are decoded to an image that shows them. -/
theorem Encodes.decode_eq {bits : List Bool} (h : Encodes p (whiteRow p) rows 0 bits)
    (hcolumns : 0 < p.columns) (hmax : p.columns ≤ maxColumns) (hrows : rows ≠ [])
    (hlen : ∀ row ∈ rows, row.length = p.columns) (hcount : p.rows = rows.length ∨ p.rows = 0) :
    ∃ image, decode (Bits.pack bits) p = .ok image ∧ image.Shows rows := by
  have hbits : Bits.ofBytes (Bits.pack bits) = bits ++ Bits.fill bits.length := Bits.ofBytes_pack bits
  have hposition : (0 + (Bits.ofBytes (Bits.pack bits)).length) % 8 = 0 := by
    rw [Nat.zero_add, Bits.length_ofBytes, Nat.mul_mod_left]
  obtain ⟨stored, hdecode, hall⟩ := h.decodeRows_eq (length_whiteRow p) hlen hcolumns
    (s := { bits := Bits.ofBytes (Bits.pack bits) }) hbits (fun _ hb => (List.mem_replicate.mp hb).2)
    hposition (Nat.lt_succ_self _) (Nat.le_succ _) (whiteReference_eq p)
    (by rw [List.length_nil, Nat.zero_add]; exact hcount.symm) (fun hnil => absurd hnil hrows)
  have hstored : stored ≠ [] := by
    rintro rfl
    cases hall
    exact hrows rfl
  refine ⟨imageOf p stored, ?_, shows_imageOf ?_ hall hlen⟩
  · have hinvalid : ¬ (p.columns = 0 ∨ maxColumns < p.columns) := by omega
    rw [decode, if_neg hinvalid]
    simp [hdecode, hstored, bind, Except.bind]
  · omega

/-- All rows of one length are those of some data. -/
theorem exists_decode_shows (hcolumns : 0 < p.columns) (hmax : p.columns ≤ maxColumns) (hrows : rows ≠ [])
    (hlen : ∀ row ∈ rows, row.length = p.columns) (hcount : p.rows = rows.length) :
    ∃ data image, decode data p = .ok image ∧ image.Shows rows := by
  have hwhite : ∀ row ∈ rows, row.length = (whiteRow p).length := fun row hrow =>
    (hlen row hrow).trans (length_whiteRow p).symm
  obtain ⟨bits, hbits⟩ := exists_encodes (p := p) hwhite 0
  exact ⟨Bits.pack bits, hbits.decode_eq hcolumns hmax hrows hlen (.inl hcount)⟩

end Folio.Fax
