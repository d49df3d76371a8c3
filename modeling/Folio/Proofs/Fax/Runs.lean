import Folio.Proofs.Fax.Changes
import Folio.Proofs.Fax.Words

/-!
# Rows coded in one dimension

A row is coded by the lengths of its runs. Only the words of a run may be chosen.

Main statements: the code of a row is read as its changes, and every row has one.
-/

namespace Folio.Fax

/-- A change that is not the latest one is added. -/
theorem pushChange_of_ne {columns position : Nat} {stored : List Nat} (hle : position ≤ columns)
    (hne : stored.head? ≠ some position) :
    pushChange columns position stored = position :: stored := by
  unfold pushChange
  rw [Nat.min_eq_left hle]
  cases stored with
  | nil => rfl
  | cons last earlier => exact if_neg fun heq => hne (congrArg some heq)

/-- A change at the position of the latest one cancels it. -/
theorem pushChange_self {columns position : Nat} {stored : List Nat} (hle : position ≤ columns) :
    pushChange columns position (position :: stored) = stored := by
  unfold pushChange
  rw [Nat.min_eq_left hle]
  exact if_pos rfl

/-- The lengths of the runs of a row from `x` on, given the changes that follow. -/
def runsFrom (columns : Nat) : Nat → List Nat → List Nat
  | x, [] => [columns - x]
  | x, change :: rest => (change - x) :: runsFrom columns change rest

/-- The lengths of the white and black runs of a row in turn. The first one is white, of no pixels if
the first pixel is black. -/
def runs (row : List Bool) : List Nat := runsFrom row.length 0 (changes row)

/-- The bits of some runs, whose colors alternate. -/
inductive RunsCode : Bool → List Nat → List Bool → Prop
  | nil {white : Bool} : RunsCode white [] []
  | cons {white : Bool} {run : Nat} {runs : List Nat} {word bits : List Bool} :
    RunCode white run word → RunsCode (!white) runs bits → RunsCode white (run :: runs) (word ++ bits)

theorem exists_runsCode (white : Bool) (runs : List Nat) : ∃ bits, RunsCode white runs bits := by
  induction runs generalizing white with
  | nil => exact ⟨[], .nil⟩
  | cons run runs ih =>
    obtain ⟨word, hword⟩ := exists_runCode white run
    obtain ⟨bits, hbits⟩ := ih (!white)
    exact ⟨word ++ bits, .cons hword hbits⟩

theorem readRuns_step {columns fuel x run : Nat} {white : Bool} {stored : List Nat}
    {word rest : List Bool} (hx : x < columns) (hrun : RunCode white run word) :
    readRuns columns (fuel + 1) x white stored (word ++ rest) =
      readRuns columns fuel (x + run) (!white) (pushChange columns (x + run) stored) rest := by
  rw [readRuns, if_neg (Nat.not_le.mpr hx), hrun.readRun]
  rfl

theorem readRuns_end {columns fuel x : Nat} {white : Bool} {stored : List Nat} {rest : List Bool}
    (hx : columns ≤ x) (hfuel : 0 < fuel) :
    readRuns columns fuel x white stored rest = .ok (stored, rest) := by
  cases fuel with
  | zero => exact absurd hfuel (Nat.lt_irrefl 0)
  | succ fuel => rw [readRuns, if_pos hx]

/-- The runs from `x` on are read as the changes that follow and the end of the row. -/
theorem RunsCode.readRuns_eq {columns x : Nat} {white : Bool} {following stored : List Nat}
    {bits : List Bool} (h : RunsCode white (runsFrom columns x following) bits) (hx : x < columns)
    (hsorted : following.Pairwise (· < ·)) (hfollowing : ∀ c ∈ following, x ≤ c ∧ c < columns)
    (hstored : ∀ last ∈ stored.head?, last < columns ∧ ∀ c ∈ following, last < c) {fuel : Nat}
    (hfuel : bits.length < fuel) (rest : List Bool) :
    readRuns columns fuel x white stored (bits ++ rest) =
      .ok (columns :: (following.reverse ++ stored), rest) := by
  induction following generalizing x white stored bits fuel with
  | nil =>
    cases h with
    | cons hrun hnil =>
      cases hnil
      have hpos := hrun.length_pos
      obtain ⟨fuel, rfl⟩ : ∃ k, fuel = k + 1 := ⟨fuel - 1, by omega⟩
      have hne : stored.head? ≠ some columns := fun hlast =>
        Nat.lt_irrefl columns (hstored columns hlast).1
      rw [List.append_nil] at hfuel ⊢
      rw [readRuns_step hx hrun, Nat.add_sub_cancel' hx.le, readRuns_end (Nat.le_refl _) (by omega),
        pushChange_of_ne (Nat.le_refl _) hne]
      rfl
  | cons c following ih =>
    cases h with
    | cons hrun hrest =>
      obtain ⟨hfirst, hsorted⟩ := List.pairwise_cons.mp hsorted
      obtain ⟨⟨hle, hlt⟩, hbounds⟩ := List.forall_mem_cons.mp hfollowing
      have hpos := hrun.length_pos
      rw [List.length_append] at hfuel
      obtain ⟨fuel, rfl⟩ : ∃ k, fuel = k + 1 := ⟨fuel - 1, by omega⟩
      have hne : stored.head? ≠ some c := fun hlast =>
        Nat.lt_irrefl c ((hstored c hlast).2 c List.mem_cons_self)
      rw [List.append_assoc, readRuns_step hx hrun, Nat.add_sub_cancel' hle,
        pushChange_of_ne hlt.le hne,
        ih hrest hlt hsorted (fun d hd => ⟨(hfirst d hd).le, (hbounds d hd).2⟩) ?_ (by omega),
        List.reverse_cons, List.append_assoc]
      · rfl
      · intro last hlast
        obtain rfl := Option.some.inj hlast
        exact ⟨hlt, hfirst⟩

/-- A row coded in one dimension is read as its changes. -/
theorem RunsCode.exists_stores {row bits : List Bool} (h : RunsCode true (runs row) bits)
    (hrow : 0 < row.length) {fuel : Nat} (hfuel : bits.length < fuel) (rest : List Bool) :
    ∃ stored, readRuns row.length fuel 0 true [] (bits ++ rest) = .ok (stored, rest) ∧
      Stores stored.reverse row := by
  refine ⟨_, h.readRuns_eq hrow (pairwise_changes row) (fun c hc => ?_) ?_ hfuel rest, ?_⟩
  · exact ⟨Nat.zero_le c, lt_length_of_mem_changes hc⟩
  · exact fun last hlast => absurd hlast (by simp)
  · right
    simp

theorem RunsCode.opensWithin {row bits : List Bool} (h : RunsCode true (runs row) bits) :
    OpensWithin 8 bits := by
  obtain ⟨run, rest, hruns⟩ : ∃ run rest, runs row = run :: rest := by
    rw [runs]
    cases changes row with
    | nil => exact ⟨_, _, rfl⟩
    | cons c rest => exact ⟨_, _, rfl⟩
  rw [hruns] at h
  cases h with
  | cons hrun _ => exact hrun.opensWithin.append _

end Folio.Fax
