import Folio.Proofs.Fax.RoundTrip

/-!
# Codes that are cut

Main statements: of a row whose bits are cut anywhere, the end of the data is all that is noticed, whether the cut
is in a word, between two words or before the first one that is no tag.
-/

namespace Folio.Fax

/-! ## Cutting bits -/

/-- Whether some bits are the beginning of others, and not all of them. -/
def IsCut (cut bits : List Bool) : Prop := ∃ b rest, bits = cut ++ b :: rest

variable {cut first second bits rest word : List Bool}

theorem not_isCut_nil : ¬ IsCut cut [] := by
  rintro ⟨b, rest, h⟩
  simp at h

theorem IsCut.isPrefix (h : IsCut cut bits) : cut <+: bits := by
  obtain ⟨b, rest, rfl⟩ := h
  exact List.prefix_append _ _

theorem IsCut.length_lt (h : IsCut cut bits) : cut.length < bits.length := by
  obtain ⟨b, rest, rfl⟩ := h
  rw [List.length_append, List.length_cons]
  omega

/-- The beginning of two parts is cut in the first one, or contains it. -/
theorem isPrefix_append_iff :
    cut <+: first ++ second ↔ IsCut cut first ∨ ∃ rest, cut = first ++ rest ∧ rest <+: second := by
  constructor
  · rintro ⟨more, h⟩
    rcases List.append_eq_append_iff.mp h with ⟨after, hfirst, -⟩ | ⟨rest, hcut, hsecond⟩
    · cases after with
      | nil => exact .inr ⟨[], by simpa using hfirst.symm, List.nil_prefix⟩
      | cons b after => exact .inl ⟨b, after, hfirst⟩
    · exact .inr ⟨rest, hcut, more, hsecond.symm⟩
  · rintro (h | ⟨rest, rfl, h⟩)
    · exact h.isPrefix.trans (List.prefix_append _ _)
    · exact (List.prefix_append_right_inj first).mpr h

theorem isCut_append_iff :
    IsCut cut (first ++ second) ↔ IsCut cut first ∨ ∃ rest, cut = first ++ rest ∧ IsCut rest second := by
  constructor
  · intro h
    refine (isPrefix_append_iff.mp h.isPrefix).imp_right ?_
    rintro ⟨rest, rfl, -⟩
    obtain ⟨b, more, heq⟩ := h
    rw [List.append_assoc] at heq
    exact ⟨rest, rfl, b, more, List.append_cancel_left heq⟩
  · rintro (⟨b, more, rfl⟩ | ⟨rest, rfl, b, more, rfl⟩)
    · exact ⟨b, more ++ second, by simp⟩
    · exact ⟨b, more, (List.append_assoc _ _ _).symm⟩

theorem isCut_singleton_iff {b : Bool} : IsCut cut [b] ↔ cut = [] := by
  constructor
  · intro h
    exact List.length_eq_zero_iff.mp (Nat.lt_one_iff.mp h.length_lt)
  · rintro rfl
    exact ⟨b, [], rfl⟩

theorem IsCut.of_cons {b : Bool} (h : IsCut cut (b :: bits)) (hne : cut ≠ []) :
    ∃ rest, cut = b :: rest ∧ IsCut rest bits := by
  rw [← List.singleton_append, isCut_append_iff] at h
  exact h.resolve_left fun h => hne (isCut_singleton_iff.mp h)

theorem IsCut.zeros_of_endOfLine {zeros : Nat} (h : IsCut cut (endOfLine zeros)) :
    ∀ b ∈ cut, b = false := by
  rw [endOfLine, isCut_append_iff] at h
  rcases h with h | ⟨rest, rfl, h⟩
  · exact fun b hb => List.eq_of_mem_replicate (h.isPrefix.subset hb)
  · rw [isCut_singleton_iff.mp h, List.append_nil]
    exact fun b hb => List.eq_of_mem_replicate hb

/-- Where the bits are too few for the end of a line, there is none. -/
theorem IsCut.skipEndOfLine?_eq_none (h : IsCut cut bits) (hopens : OpensWithin 11 bits) :
    skipEndOfLine? 0 cut = none := by
  by_cases hzeros : ∀ b ∈ cut, b = false
  · exact skipEndOfLine?_of_zeros hzeros 0
  · refine skipEndOfLine?_of_opens ?_
    have hcut : true ∈ cut := by simpa using hzeros
    by_cases hlong : cut.length ≤ 11
    · rwa [OpensWithin, List.take_of_length_le hlong]
    · obtain ⟨b, rest, rfl⟩ := h
      rwa [OpensWithin, List.take_append_of_le_length (by omega)] at hopens

/-! ## Reading what is cut -/

variable {white : Bool} {above row : List Bool} {a0 : Option Nat} {columns fuel : Nat}

theorem CodeTree.read_of_isCut {α : Type} {t : CodeTree α} {value : α} (h : t.lookup? word = some value)
    (hcut : IsCut cut word) : t.read cut = .error .unexpectedEnd := by
  obtain ⟨b, rest, rfl⟩ := hcut
  induction cut generalizing t with
  | nil => rfl
  | cons c cut ih =>
    rw [List.cons_append] at h
    rw [read]
    rcases lookup?_cons h with ⟨hnil, -⟩ | ⟨_, _, zero, one, -, hbranch⟩
    · simp at hnil
    · rw [lookup?, hbranch] at h
      rw [hbranch]
      exact ih h

theorem readRunFrom_of_isCut {root t : CodeTree Nat} {run length : Nat} (h : t.lookup? word = some length)
    (hcut : IsCut cut word) : readRunFrom root t run cut = .error .unexpectedEnd := by
  obtain ⟨b, rest, rfl⟩ := hcut
  induction cut generalizing t with
  | nil => rfl
  | cons c cut ih =>
    rw [List.cons_append] at h
    rw [readRunFrom]
    rcases CodeTree.lookup?_cons h with ⟨hnil, -⟩ | ⟨_, _, zero, one, -, hbranch⟩
    · simp at hnil
    · rw [CodeTree.lookup?, hbranch] at h
      rw [hbranch]
      exact ih h

theorem RunCode.readRunFrom_of_isCut {run : Nat} (h : RunCode white run bits) (hcut : IsCut cut bits)
    (before : Nat) :
    Folio.Fax.readRunFrom (runTree white) (runTree white) before cut = .error .unexpectedEnd := by
  induction h generalizing cut before with
  | last hmem _ => exact Folio.Fax.readRunFrom_of_isCut (lookup?_runTree hmem) hcut
  | more hmem hle _ ih =>
    rcases isCut_append_iff.mp hcut with hfirst | ⟨rest, rfl, hrest⟩
    · exact Folio.Fax.readRunFrom_of_isCut (lookup?_runTree hmem) hfirst
    · rw [readRunFrom_word (standardRuns_ne_nil hmem) (lookup?_runTree hmem),
        if_neg (Nat.not_lt.mpr hle)]
      exact ih hrest _

theorem RunCode.readRun_of_isCut {run : Nat} (h : RunCode white run bits) (hcut : IsCut cut bits) :
    Folio.Fax.readRun white cut = .error .unexpectedEnd :=
  h.readRunFrom_of_isCut hcut 0

theorem readRuns_of_error {x : Nat} {stored : List Nat} (hx : x < columns)
    (h : readRun white bits = .error .unexpectedEnd) :
    readRuns columns fuel x white stored bits = .error .unexpectedEnd := by
  cases fuel with
  | zero => rfl
  | succ fuel =>
    rw [readRuns, if_neg (Nat.not_le.mpr hx), h]
    rfl

/-- Of runs that are cut the end of the data is noticed, whatever changes come before. -/
theorem RunsCode.readRuns_of_isCut {x : Nat} {following stored : List Nat}
    (h : RunsCode white (runsFrom columns x following) bits) (hcut : IsCut cut bits) (hx : x < columns)
    (hsorted : following.Pairwise (· < ·)) (hfollowing : ∀ c ∈ following, x ≤ c ∧ c < columns) :
    readRuns columns fuel x white stored cut = .error .unexpectedEnd := by
  induction following generalizing x white stored bits cut fuel with
  | nil =>
    cases h with
    | cons hrun hnil =>
      cases hnil
      rw [List.append_nil] at hcut
      exact readRuns_of_error hx (hrun.readRun_of_isCut hcut)
  | cons c following ih =>
    cases h with
    | cons hrun hrest =>
      obtain ⟨hfirst, hsorted⟩ := List.pairwise_cons.mp hsorted
      obtain ⟨⟨hle, hlt⟩, hbounds⟩ := List.forall_mem_cons.mp hfollowing
      rcases isCut_append_iff.mp hcut with hword | ⟨rest, rfl, hcutRest⟩
      · exact readRuns_of_error hx (hrun.readRun_of_isCut hword)
      · cases fuel with
        | zero => rfl
        | succ fuel =>
          rw [readRuns_step hx hrun, Nat.add_sub_cancel' hle]
          exact ih hrest hcutRest hlt hsorted fun d hd => ⟨(hfirst d hd).le, (hbounds d hd).2⟩

theorem readModes_of_error {s : RowState} (hs : s.a0 = a0) (hwithin : Within row a0)
    {reference : Array Nat} (h : s.step row.length reference = .error .unexpectedEnd) :
    readModes row.length reference fuel s = .error .unexpectedEnd := by
  have hnotend : ¬ s.a0.any (row.length ≤ ·) = true := by
    rw [hs]
    cases a0 with
    | none => exact Bool.false_ne_true
    | some x => simpa using hwithin x rfl
  cases fuel with
  | zero => rfl
  | succ fuel =>
    rw [readModes, if_neg hnotend, h]
    rfl

/-- Of a mode whose word is cut the end of the data is noticed. -/
theorem readModes_of_isCut_word {s : RowState} {mode : Mode} (hs : s.a0 = a0) (hwithin : Within row a0)
    {reference : Array Nat} (hword : (word, mode) ∈ standardModes) (hcut : IsCut s.bits word) :
    readModes row.length reference fuel s = .error .unexpectedEnd := by
  refine readModes_of_error hs hwithin ?_
  rw [RowState.step, CodeTree.read_of_isCut (lookup?_modeTree hword) hcut]
  rfl

/-- Reading a mode, where of the modes after it the end of the data is noticed. -/
theorem readModes_of_step_error {s : RowState} {a0' : Option Nat} (hs : IsAt s above row a0)
    (hwithin : Within row a0)
    (hstep : ∃ s', s.step row.length (referenceOf above) = .ok s' ∧ IsAt s' above row a0' ∧ s'.bits = rest)
    (hnext : ∀ {s}, IsAt s above row a0' → s.bits = rest → ∀ {fuel},
      readModes row.length (referenceOf above) fuel s = .error .unexpectedEnd) :
    readModes row.length (referenceOf above) fuel s = .error .unexpectedEnd := by
  obtain ⟨s', hstep, hs', hbits⟩ := hstep
  cases fuel with
  | zero => rfl
  | succ fuel =>
    rw [readModes_step hs hwithin hstep]
    exact hnext hs' hbits

/-- Of modes that are cut the end of the data is noticed, also where the cut is in the runs of a mode. -/
theorem ModesCode.readModes_of_isCut (h : ModesCode above row a0 bits) (hlen : above.length = row.length)
    {s : RowState} (hs : IsAt s above row a0) (hcut : IsCut s.bits bits) :
    readModes row.length (referenceOf above) fuel s = .error .unexpectedEnd := by
  induction h generalizing s fuel with
  | done => exact absurd hcut not_isCut_nil
  | pass hwithin hlt hword _ ih =>
    rcases isCut_append_iff.mp hcut with hcut | ⟨rest, hbits, hcut⟩
    · exact readModes_of_isCut_word hs.a0_eq hwithin hword hcut
    · exact readModes_of_step_error hs hwithin (hs.step_pass hwithin hlen hlt hword hbits)
        fun hs' hrest => ih hs' (hrest ▸ hcut)
  | vertical hwithin _ hoffset _ hword _ ih =>
    rcases isCut_append_iff.mp hcut with hcut | ⟨rest, hbits, hcut⟩
    · exact readModes_of_isCut_word hs.a0_eq hwithin hword hcut
    · exact readModes_of_step_error hs hwithin (hs.step_vertical hwithin hlen hoffset hword hbits)
        fun hs' hrest => ih hs' (hrest ▸ hcut)
  | @horizontal a0 a1 a2 word first second bits hwithin _ _ ha1 ha2 hword hfirst hsecond _ ih =>
    rcases isCut_append_iff.mp hcut with hcut | ⟨afterWord, hbits, hcutRuns⟩
    · exact readModes_of_isCut_word hs.a0_eq hwithin hword hcut
    have hwhite := hs.white_eq hwithin
    rcases isCut_append_iff.mp hcutRuns with hcutFirst | ⟨afterFirst, rfl, hcutAfter⟩
    · refine readModes_of_error hs.a0_eq hwithin ?_
      rw [RowState.step, hbits, read_modeTree hword, hwhite]
      simp only [bind, Except.bind, hfirst.readRun_of_isCut hcutFirst]
    rcases isCut_append_iff.mp hcutAfter with hcutSecond | ⟨rest, rfl, hcutRest⟩
    · refine readModes_of_error hs.a0_eq hwithin ?_
      rw [RowState.step, hbits, read_modeTree hword, hwhite, Bool.not_not]
      simp only [bind, Except.bind, hfirst.readRun, hsecond.readRun_of_isCut hcutSecond]
    · exact readModes_of_step_error hs hwithin
        (hs.step_horizontal hwithin hlen ha1 ha2 hword hfirst hsecond hbits)
        fun hs' hrest => ih hs' (hrest ▸ hcutRest)

/-! ## Rows -/

theorem RunsCode.readRow_of_isCut (h : RunsCode true (runs row) bits) (hrow : 0 < row.length)
    (hcut : IsCut cut bits) (s : Progress) :
    s.readRow row.length fuel false cut = .error .unexpectedEnd := by
  have hread : readRuns row.length fuel 0 true [] cut = .error .unexpectedEnd :=
    RunsCode.readRuns_of_isCut h hcut hrow (pairwise_changes row) fun c hc =>
      ⟨Nat.zero_le c, lt_length_of_mem_changes hc⟩
  rw [Progress.readRow, if_neg Bool.false_ne_true, hread]
  rfl

theorem ModesCode.readRow_of_isCut (h : ModesCode above row none bits) (hlen : above.length = row.length)
    (hcut : IsCut cut bits) {s : Progress} (hreference : s.reference row.length = referenceOf above) :
    s.readRow row.length fuel true cut = .error .unexpectedEnd := by
  have hcursor : 0 < (referenceOf above).size := by
    rw [size_referenceOf]
    exact Nat.succ_pos _
  have hs : IsAt { bits := cut } above row none := ⟨rfl, fun _ => rfl, .inl (passed_none row).symm, hcursor⟩
  rw [Progress.readRow, if_pos rfl, hreference, h.readModes_of_isCut hlen hs hcut]
  rfl

/-- Of a row that is cut the end of the data is noticed, unless its tag is missing too. -/
theorem RowCode.readRow_of_isCut {scheme : Scheme} {code : List Bool} (h : RowCode above row scheme code)
    (hlen : above.length = row.length) (hrow : 0 < row.length) (hcut : IsCut cut code) (hne : cut ≠ [])
    {s : Progress} (hreference : s.reference row.length = referenceOf above) :
    ∃ twoDimensional bits, readTag scheme cut = .ok (twoDimensional, bits) ∧
      s.readRow row.length fuel twoDimensional bits = .error .unexpectedEnd := by
  cases h with
  | runs h => exact ⟨false, cut, rfl, h.readRow_of_isCut hrow hcut s⟩
  | modes h => exact ⟨true, cut, rfl, h.readRow_of_isCut hlen hcut hreference⟩
  | taggedRuns h =>
    obtain ⟨rest, rfl, hcutRow⟩ := hcut.of_cons hne
    exact ⟨false, rest, rfl, h.readRow_of_isCut hrow hcutRow s⟩
  | taggedModes h =>
    obtain ⟨rest, rfl, hcutRow⟩ := hcut.of_cons hne
    exact ⟨true, rest, rfl, h.readRow_of_isCut hlen hcutRow hreference⟩

/-- A tag and what is left of a row are not taken for a tag and the end of a line. -/
theorem RowCode.take_ne_of_isCut {code : List Bool} (h : RowCode above row .mixed code)
    (hcut : IsCut cut code) : (cut.take 13 == taggedEndOfLine) = false := by
  rw [beq_eq_false_iff_ne]
  intro heq
  have hlong : 13 ≤ cut.length := by
    have hlength := congrArg List.length heq
    rw [List.length_take, show taggedEndOfLine.length = 13 from rfl] at hlength
    omega
  obtain ⟨b, rest, rfl⟩ := hcut
  have hne := h.take_ne []
  rw [List.append_nil, List.take_append_of_le_length hlong, heq] at hne
  exact absurd hne (by decide)

/-- Before a row that is cut no more is skipped than the end of a line that comes before it. -/
theorem skipEndOfLines_of_isCut {scheme : Scheme} {sync code : List Bool} (hsync : SyncCode scheme sync)
    (hcode : RowCode above row scheme code) (hcut : IsCut cut code) (hfuel : sync.length ≤ fuel) :
    (skipEndOfLines (scheme == .mixed) fuel (sync ++ cut)).2 = cut := by
  have hopens : OpensWithin 11 code := hcode.opensWithin.mono (by decide)
  have hnone (fuel : Nat) : skipEndOfLines (scheme == .mixed) fuel cut = (0, cut) :=
    skipEndOfLines_of_none _ (hcut.skipEndOfLine?_eq_none hopens) fuel
  cases hsync with
  | nothing _ => rw [List.nil_append, hnone]
  | @endOfLine zeros _ hzeros =>
    have hpos : 0 < fuel := by
      rw [endOfLine, List.length_append, List.length_singleton] at hfuel
      omega
    obtain ⟨fuel, rfl⟩ : ∃ k, fuel = k + 1 := ⟨fuel - 1, by omega⟩
    have huntagged : ((scheme == .mixed) && cut.take 13 == taggedEndOfLine) = false := by
      by_cases hmixed : scheme = .mixed
      · subst hmixed
        rw [hcode.take_ne_of_isCut hcut, Bool.and_false]
      · rw [beq_eq_false_iff_ne.mpr hmixed, Bool.false_and]
    rw [skipEndOfLines_endOfLine _ hzeros, huntagged]
    dsimp only
    rw [if_neg Bool.false_ne_true, hnone]

end Folio.Fax
