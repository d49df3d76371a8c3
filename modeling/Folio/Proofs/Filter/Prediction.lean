import Mathlib
import Folio.Proofs.Bytes
import Folio.Filter.Predictor

/-!
# Predicting samples

Rows of a PNG image are coded by one of five types each, which predict a byte from its neighbours to
the left, above and above left; rows of a TIFF image by the differences of each color component from
that of the pixel before. Main statement: a predictor gives back the rows of every image exactly if the
number of bits of a row fits into a machine word.

A decoder reads neighbours that it has itself put out. They are those of the coder as long as all bytes
before are the same, so each row is decoded from its beginning.
-/

namespace Folio.Filter

/-- The ways to code a row of a PNG image. -/
inductive RowType where
  | none
  | sub
  | up
  | average
  | paeth

namespace RowType

/-- The byte that stands before a row of the type. -/
def code : RowType → UInt8
  | none => 0
  | sub => 1
  | up => 2
  | average => 3
  | paeth => 4

/-- The first of three neighbours whose value is nearest to `left + up - upLeft`. -/
def nearest (left up upLeft : UInt8) : UInt8 :=
  ([left, up, upLeft].argmin fun b =>
    ((left.toNat : Int) + up.toNat - upLeft.toNat - b.toNat).natAbs).getD left

/-- The byte that is expected beside its neighbours. -/
def predict : RowType → UInt8 → UInt8 → UInt8 → UInt8
  | none, _, _, _ => 0
  | sub, left, _, _ => left
  | up, _, above, _ => above
  | average, left, above, _ => UInt8.ofNat ((left.toNat + above.toNat) / 2)
  | paeth, left, above, aboveLeft => nearest left above aboveLeft

end RowType

namespace Predictor

/-- The byte of a row that comes `distance` bytes before an index, zero if there is none. -/
def before (distance : Nat) (row : Bytes) (i : Nat) : UInt8 :=
  if distance ≤ i then row.getD (i - distance) 0 else 0

/-- What the bytes of a row exceed their predictions by, given the row above it. -/
def residues (distance : Nat) (above : Bytes) (type : RowType) (row : Bytes) : Bytes :=
  row.mapIdx fun i b =>
    b - type.predict (before distance row i) (above.getD i 0) (before distance above i)

/-- The coded rows of an image, each of which follows its type, given the row above the first. -/
def codedRows (distance : Nat) : Bytes → List (RowType × Bytes) → List Bytes
  | _, [] => []
  | above, (type, row) :: rest =>
    (type.code :: residues distance above type row) :: codedRows distance row rest

/-- What the bytes of a row exceed those `distance` bytes before them by. -/
def differences (distance : Nat) (row : Bytes) : Bytes :=
  row.mapIdx fun i b => b - before distance row i

/-- The number of whole bytes that the bits of a row need. -/
def rowSize (p : Predictor) : Nat := (p.columns * p.bits * p.colors + 7) / 8

/-- The number of whole bytes that the bits of a pixel need, at least one. -/
def pixelSize (p : Predictor) : Nat := max 1 ((p.bits * p.colors + 7) / 8)

/-- Whether PNG rows are given back, an incomplete last row dropped, and unknown types refused. -/
structure UndoesTypes (p : Predictor) : Prop where
  undo?_codedRows : ∀ (rows : List (RowType × Bytes)) (rest : Bytes),
    (∀ row ∈ rows, row.2.length = p.rowSize) → rest.length ≤ p.rowSize →
    p.undo? ((codedRows p.pixelSize [] rows).flatten ++ rest) = some (rows.flatMap Prod.snd)
  undo?_unknown : ∀ (rows : List Bytes) (rest : Bytes),
    (∀ row ∈ rows, row.length = p.rowSize + 1) → rest.length ≤ p.rowSize →
    (∃ row ∈ rows, ∃ type ∈ row.head?, 4 < type) → p.undo? (rows.flatten ++ rest) = none

/-- Whether TIFF rows are given back, an incomplete last row included. -/
def UndoesDifferences (p : Predictor) : Prop :=
  ∀ (rows : List Bytes) (rest : Bytes),
    (∀ row ∈ rows, row.length = p.rowSize) → rest.length ≤ p.rowSize →
    p.undo? ((rows.map (differences p.colors)).flatten ++ differences p.colors rest) =
      some (rows.flatten ++ rest)

/-- Whether a predictor undoes prediction. -/
structure UndoesPrediction (p : Predictor) : Prop where
  types : 10 ≤ p.kind → p.kind ≤ 15 → UndoesTypes p
  differences : p.kind = 2 → p.bits = 8 → UndoesDifferences p

variable {p : Predictor} {distance : Nat} {above row rest : Bytes} {type : RowType}

/-! ## One byte -/

theorem argmin_triple (f : UInt8 → Nat) (a b c : UInt8) :
    [a, b, c].argmin f =
      some (if f a ≤ f b ∧ f a ≤ f c then a else if f b ≤ f c then b else c) := by
  rw [List.argmin_cons, List.argmin_cons, List.argmin_singleton]
  dsimp only
  by_cases hc : f c < f b
  · rw [if_pos hc]
    dsimp only
    split_ifs <;> first | rfl | omega
  · rw [if_neg hc]
    dsimp only
    split_ifs <;> first | rfl | omega

theorem nearestNeighbour_eq (left up upLeft : UInt8) :
    nearestNeighbour left up upLeft = RowType.nearest left up upLeft := by
  rw [RowType.nearest, argmin_triple]
  rfl

theorem estimate?_code (type : RowType) (left up upLeft : UInt8) :
    estimate? type.code left up upLeft = some (type.predict left up upLeft) := by
  cases type with
  | paeth => exact congrArg some (nearestNeighbour_eq left up upLeft)
  | none | sub | up | average => rfl

theorem estimate?_of_lt {code : UInt8} (h : 4 < code) (left up upLeft : UInt8) :
    estimate? code left up upLeft = none := by
  have hne {n : UInt8} (hn : n ≤ 4) : code ≠ n := by
    intro heq
    subst heq
    exact absurd hn (UInt8.not_le.mpr h)
  unfold estimate?
  rw [if_neg (hne (by decide)), if_neg (hne (by decide)), if_neg (hne (by decide)),
    if_neg (hne (by decide)), if_neg (hne (by decide))]

theorem getD_toArray (bytes : Bytes) (i : Nat) : bytes.toArray.getD i 0 = bytes.getD i 0 := by
  rw [Array.getD_eq_getD_getElem?, List.getElem?_toArray, List.getD_eq_getElem?_getD]

/-- The neighbour to the left of an index does not depend on the bytes from there on. -/
theorem before_append (hdistance : 0 < distance) (rest : Bytes) {i : Nat} (hi : i ≤ row.length) :
    before distance (row ++ rest) i = before distance row i := by
  unfold before
  by_cases hle : distance ≤ i
  · rw [if_pos hle, if_pos hle]
    exact List.getD_append _ _ _ _ (by omega)
  · rw [if_neg hle, if_neg hle]

/-! ## One row -/

@[simp] theorem length_residues : (residues distance above type row).length = row.length :=
  List.length_mapIdx

@[simp] theorem length_differences : (differences distance row).length = row.length :=
  List.length_mapIdx

theorem residues_concat (hdistance : 0 < distance) (above : Bytes) (type : RowType) (row : Bytes)
    (b : UInt8) :
    residues distance above type (row ++ [b]) =
      residues distance above type row ++ [b - type.predict (before distance row row.length)
        (above.getD row.length 0) (before distance above row.length)] := by
  unfold residues
  rw [List.mapIdx_concat, before_append hdistance [b] (Nat.le_refl _)]
  refine congrArg (· ++ _) (List.ext_getElem (by simp) fun i hi hi' => ?_)
  have hlt : i < row.length := by simpa using hi'
  rw [List.getElem_mapIdx, List.getElem_mapIdx, before_append hdistance [b] hlt.le]

theorem differences_concat (hdistance : 0 < distance) (row : Bytes) (b : UInt8) :
    differences distance (row ++ [b]) =
      differences distance row ++ [b - before distance row row.length] := by
  unfold differences
  rw [List.mapIdx_concat, before_append hdistance [b] (Nat.le_refl _)]
  refine congrArg (· ++ _) (List.ext_getElem (by simp) fun i hi hi' => ?_)
  have hlt : i < row.length := by simpa using hi'
  rw [List.getElem_mapIdx, List.getElem_mapIdx, before_append hdistance [b] hlt.le]

/-- One more byte of a row, of which the bytes before have come out as `out`. -/
theorem undoRow?_concat {code : UInt8} {out : Bytes}
    (h : undoRow? distance above.toArray code row = some out.toArray) (b : UInt8) :
    undoRow? distance above.toArray code (row ++ [b]) =
      (estimate? code (before distance out out.length) (above.getD out.length 0)
        (before distance above out.length)).map fun guess => (out ++ [b + guess]).toArray := by
  unfold undoRow? at h ⊢
  rw [List.foldlM_append, h]
  simp only [Option.bind_eq_bind, Option.bind_some, List.foldlM_cons, List.foldlM_nil, Option.pure_def,
    Option.bind_fun_some, List.size_toArray, getD_toArray, List.push_toArray]
  exact Option.map_eq_bind.symm

theorem undoDifferences_concat (row : Bytes) (b : UInt8) :
    undoDifferences distance (row ++ [b]) = undoDifferences distance row ++
      [b + before distance (undoDifferences distance row) (undoDifferences distance row).length] := by
  unfold undoDifferences
  rw [List.foldl_append]
  generalize row.foldl _ #[] = out
  rw [List.foldl_cons, List.foldl_nil, Array.toList_push, before, Array.length_toList]
  by_cases hle : distance ≤ out.size
  · rw [if_pos hle, if_pos hle, ← getD_toArray, Array.toArray_toList]
  · rw [if_neg hle, if_neg hle, UInt8.add_zero]

/-- A row is given back, by induction on its bytes: each finds the bytes before it in place. -/
theorem undoRow?_residues (hdistance : 0 < distance) (above : Bytes) (type : RowType)
    (row : Bytes) :
    undoRow? distance above.toArray type.code (residues distance above type row) =
      some row.toArray := by
  induction row using List.reverseRecOn with
  | nil => rfl
  | append_singleton row b ih =>
    rw [residues_concat hdistance, undoRow?_concat ih, estimate?_code, Option.map_some,
      UInt8.sub_add_cancel]

theorem undoDifferences_differences (hdistance : 0 < distance) (row : Bytes) :
    undoDifferences distance (differences distance row) = row := by
  induction row using List.reverseRecOn with
  | nil => rfl
  | append_singleton row b ih =>
    rw [differences_concat hdistance, undoDifferences_concat, ih, UInt8.sub_add_cancel]

theorem undoRow?_of_lt {code : UInt8} (hcode : 4 < code) (above : Array UInt8) {row : Bytes}
    (hrow : row ≠ []) : undoRow? distance above code row = none := by
  cases row with
  | nil => exact absurd rfl hrow
  | cons b row =>
    rw [undoRow?, List.foldlM_cons]
    simp only [estimate?_of_lt hcode, Option.bind_eq_bind, Option.bind_none]

/-! ## All rows -/

theorem undoRows?_codedRows (hdistance : 0 < distance) (above : Bytes)
    (rows : List (RowType × Bytes)) :
    undoRows? distance above.toArray (codedRows distance above rows) =
      some (rows.flatMap Prod.snd) := by
  induction rows generalizing above with
  | nil => rfl
  | cons first rows ih =>
    obtain ⟨type, row⟩ := first
    rw [codedRows, undoRows?, undoRow?_residues hdistance, Option.bind_eq_bind, Option.bind_some,
      ih row]
    rfl

theorem undoRows?_of_lt (above : Array UInt8) {rows : List Bytes}
    (hlong : ∀ row ∈ rows, 1 < row.length)
    (hunknown : ∃ row ∈ rows, ∃ type ∈ row.head?, 4 < type) :
    undoRows? distance above rows = none := by
  induction rows generalizing above with
  | nil =>
    obtain ⟨row, hrow, -⟩ := hunknown
    cases hrow
  | cons first rows ih =>
    cases first with
    | nil => exact absurd (hlong [] List.mem_cons_self) (by simp)
    | cons code first =>
      rw [undoRows?]
      obtain ⟨row, hrow, type, htype, hlt⟩ := hunknown
      rcases List.mem_cons.mp hrow with rfl | hrow
      · obtain rfl : code = type := Option.some.inj htype
        have hne : first ≠ [] := by
          intro hnil
          exact absurd (hlong _ List.mem_cons_self) (by simp [hnil])
        rw [undoRow?_of_lt hlt above hne]
        rfl
      · have hrest (out : Array UInt8) : undoRows? distance out rows = none :=
          ih out (fun row hrow => hlong row (List.mem_cons_of_mem _ hrow))
            ⟨row, hrow, type, htype, hlt⟩
        simp only [hrest, Option.bind_eq_bind, Option.bind_none, Option.bind_fun_none]

theorem length_of_mem_codedRows {size : Nat} {rows : List (RowType × Bytes)}
    (hrows : ∀ row ∈ rows, row.2.length = size) (above : Bytes) :
    ∀ coded ∈ codedRows distance above rows, coded.length = size + 1 := by
  induction rows generalizing above with
  | nil => exact fun coded h => absurd h List.not_mem_nil
  | cons first rows ih =>
    obtain ⟨type, row⟩ := first
    intro coded hcoded
    rcases List.mem_cons.mp hcoded with rfl | hcoded
    · rw [List.length_cons, length_residues, hrows _ List.mem_cons_self]
    · exact ih (fun row hrow => hrows row (List.mem_cons_of_mem _ hrow)) row coded hcoded

/-! ## The predictor -/

section

variable (hlength : 0 < p.rowLength)
include hlength

theorem undo?_types (hlow : 10 ≤ p.kind) (hhigh : p.kind ≤ 15) (data : Bytes) :
    p.undo? data = undoRows? p.distance #[] (data.exactBlocks (p.rowLength + 1)) := by
  rw [undo?, if_neg (by omega), if_neg (by omega), if_pos ⟨hlow, hhigh⟩, if_neg (by omega)]

theorem undo?_codedRows (hlow : 10 ≤ p.kind) (hhigh : p.kind ≤ 15)
    {rows : List (RowType × Bytes)} (hrows : ∀ row ∈ rows, row.2.length = p.rowLength)
    (hrest : rest.length ≤ p.rowLength) :
    p.undo? ((codedRows p.pixelSize [] rows).flatten ++ rest) = some (rows.flatMap Prod.snd) := by
  rw [undo?_types hlength hlow hhigh, Bytes.exactBlocks_flatten_append
    (length_of_mem_codedRows hrows []) (Nat.lt_succ_of_le hrest)]
  exact undoRows?_codedRows (Nat.lt_of_lt_of_le Nat.zero_lt_one (Nat.le_max_left _ _)) [] rows

theorem undo?_blocks (hkind : p.kind = 2) (hbits : p.bits = 8) (data : Bytes) :
    p.undo? data = some ((data.blocks p.rowLength).flatMap (undoDifferences p.colors)) := by
  rw [undo?, if_neg (by omega), if_pos hkind, if_neg (by omega)]

theorem undo?_differences (hkind : p.kind = 2) (hbits : p.bits = 8) (hcolors : 0 < p.colors)
    {rows : List Bytes} (hrows : ∀ row ∈ rows, row.length = p.rowLength)
    (hrest : rest.length ≤ p.rowLength) :
    p.undo? ((rows.map (differences p.colors)).flatten ++ differences p.colors rest) =
      some (rows.flatten ++ rest) := by
  have hcoded : ∀ coded ∈ rows.map (differences p.colors), coded.length = p.rowLength := by
    intro coded hcoded
    obtain ⟨row, hrow, rfl⟩ := List.mem_map.mp hcoded
    rw [length_differences, hrows row hrow]
  have hundo : (rows.map (differences p.colors)).flatMap (undoDifferences p.colors) =
      rows.flatten := by
    rw [List.flatMap_map, List.flatten_eq_flatMap]
    exact List.flatMap_congr fun row _ => undoDifferences_differences hcolors row
  rw [undo?_blocks hlength hkind hbits, Bytes.blocks_flatten_append hlength hcoded
    (by rwa [length_differences]), List.flatMap_append, hundo]
  refine congrArg (some <| rows.flatten ++ ·) ?_
  by_cases hnil : rest = []
  · subst hnil
    rfl
  · have hne : differences p.colors rest ≠ [] := by
      intro heq
      have hlen : rest.length = 0 := by
        rw [← length_differences, heq]
        rfl
      exact hnil (List.eq_nil_of_length_eq_zero hlen)
    rw [if_neg hne, List.flatMap_singleton, undoDifferences_differences hcolors]

end

theorem rowLength_eq (h : p.columns * p.bits * p.colors < UInt64.size) :
    p.rowLength = p.rowSize := by
  rw [rowLength, rowSize, pixelBits, ← Nat.mul_assoc, Nat.mod_eq_of_lt h]

theorem rowLength_lt (h : UInt64.size ≤ p.columns * p.bits * p.colors) :
    p.rowLength < p.rowSize := by
  rw [rowLength, rowSize, pixelBits, ← Nat.mul_assoc]
  generalize p.columns * p.bits * p.colors = count at h ⊢
  have hmod : count % UInt64.size ≤ count - UInt64.size := by
    rw [Nat.mod_eq_sub_mod h]
    exact Nat.mod_le _ _
  have hsize : 8 ≤ UInt64.size := by decide
  omega

/-! ## Rows whose bits are counted right -/

theorem undoesTypes (hlow : 10 ≤ p.kind) (hhigh : p.kind ≤ 15) (hsize : 0 < p.rowSize)
    (heq : p.rowLength = p.rowSize) : UndoesTypes p := by
  have hlength : 0 < p.rowLength := heq ▸ hsize
  constructor
  · intro rows rest hrows hrest
    exact undo?_codedRows hlength hlow hhigh (heq ▸ hrows) (heq ▸ hrest)
  · intro rows rest hrows hrest hunknown
    rw [← heq] at hrows hrest
    rw [undo?_types hlength hlow hhigh,
      Bytes.exactBlocks_flatten_append hrows (Nat.lt_succ_of_le hrest)]
    refine undoRows?_of_lt #[] (fun row hrow => ?_) hunknown
    rw [hrows row hrow]
    omega

theorem colors_pos (hsize : 0 < p.rowSize) : 0 < p.colors := by
  refine Nat.pos_of_ne_zero fun hzero => ?_
  simp [rowSize, hzero] at hsize

theorem undoesDifferences (hkind : p.kind = 2) (hbits : p.bits = 8) (hsize : 0 < p.rowSize)
    (heq : p.rowLength = p.rowSize) : UndoesDifferences p := by
  intro rows rest hrows hrest
  exact undo?_differences (heq ▸ hsize) hkind hbits (colors_pos hsize) (heq ▸ hrows) (heq ▸ hrest)

/-! ## Rows whose bits are too many to count -/

/-- A row of the length that is reckoned is taken for a complete one; if that length is zero, complete
rows are lost. -/
theorem not_undoesTypes (hlow : 10 ≤ p.kind) (hhigh : p.kind ≤ 15)
    (hlt : p.rowLength < p.rowSize) : ¬ UndoesTypes p := by
  intro h
  by_cases hzero : p.rowLength = 0
  · have hrow := h.undo?_codedRows [(.none, List.replicate p.rowSize 0)] []
      (by simp) (Nat.zero_le _)
    rw [undo?, if_neg (by omega), if_neg (by omega), if_pos ⟨hlow, hhigh⟩, if_pos hzero] at hrow
    have hlen := congrArg List.length (Option.some.inj hrow)
    simp at hlen
    omega
  · have hrows : ∀ row ∈ [(RowType.none, List.replicate p.rowLength (0 : UInt8))],
        row.2.length = p.rowLength := by simp
    have hrest := h.undo?_codedRows []
      (codedRows p.pixelSize [] [(.none, List.replicate p.rowLength 0)]).flatten
      (by simp) (by simpa [codedRows] using hlt)
    have hcode : p.undo? ((codedRows p.pixelSize [] [(.none, List.replicate p.rowLength 0)]).flatten
        ++ []) = _ := undo?_codedRows (Nat.pos_of_ne_zero hzero) hlow hhigh hrows (Nat.zero_le _)
    rw [List.append_nil] at hcode
    rw [codedRows, List.flatten_nil, List.nil_append, hcode] at hrest
    have hlen := congrArg List.length (Option.some.inj hrest)
    simp at hlen
    omega

theorem differences_eq_self (h : row.length ≤ distance) : differences distance row = row := by
  refine List.ext_getElem length_differences fun i hi hi' => ?_
  have hfar : ¬ distance ≤ i := by omega
  simp only [differences, List.getElem_mapIdx, before, if_neg hfar, UInt8.sub_zero]

/-- Rows that are not longer than a pixel are left alone. -/
theorem undo?_eq_self (hkind : p.kind = 2) (hbits : p.bits = 8) (hcolors : 0 < p.colors)
    (hle : p.rowLength ≤ p.colors) (data : Bytes) : p.undo? data = some data := by
  by_cases hzero : p.rowLength = 0
  · rw [undo?, if_neg (by omega), if_pos hkind, if_pos (.inr hzero)]
  · have hlength : 0 < p.rowLength := Nat.pos_of_ne_zero hzero
    obtain ⟨rows, rest, rfl, hrows, hrest⟩ := Bytes.exists_flatten_append hlength data
    have hsame : rows.map (differences p.colors) = rows :=
      (List.map_congr_left fun row hrow => differences_eq_self ((hrows row hrow).trans_le hle)).trans
        (List.map_id rows)
    have hcode := undo?_differences hlength hkind hbits hcolors hrows hrest.le
    rwa [hsame, differences_eq_self (by omega)] at hcode

/-- A row of bytes 1 that is longer by one byte than a pixel and than the length that is reckoned: its
last byte is read as the first of a row, or as one of the first pixel of a row. -/
theorem not_undoesDifferences (hkind : p.kind = 2) (hbits : p.bits = 8) (hsize : 0 < p.rowSize)
    (hlt : p.rowLength < p.rowSize) (hcolors : p.colors < p.rowSize) :
    ¬ UndoesDifferences p := by
  intro h
  have hpos := colors_pos hsize
  generalize hcount : max p.rowLength p.colors = count
  have hcoded : differences p.colors (List.replicate count 1 ++ [1]) =
      differences p.colors (List.replicate count 1) ++ [0] := by
    have hbefore : before p.colors (List.replicate count 1)
        (List.replicate count (1 : UInt8)).length = 1 := by
      rw [before, List.length_replicate, if_pos (by omega), List.getD_replicate _ (by omega)]
    rw [differences_concat hpos, hbefore]
    rfl
  have hcode : p.undo? (differences p.colors (List.replicate count 1) ++ [0]) =
      some (List.replicate count 1 ++ [0]) := by
    rcases le_total p.rowLength p.colors with hle | hle
    · obtain rfl : p.colors = count := by omega
      rw [undo?_eq_self hkind hbits hpos hle, differences_eq_self (by simp)]
    · obtain rfl : p.rowLength = count := by omega
      have hrows : ∀ row ∈ [List.replicate p.rowLength (1 : UInt8)], row.length = p.rowLength := by
        simp
      have hrest : [(0 : UInt8)].length ≤ p.rowLength := by
        rw [List.length_singleton]
        omega
      have hrow := undo?_differences (by omega) hkind hbits hpos hrows hrest
      have hlast : differences p.colors [0] = [0] := differences_eq_self (Nat.succ_le_of_lt hpos)
      rw [hlast] at hrow
      simpa using hrow
  have hlaw := h [] (List.replicate count 1 ++ [1]) (by simp) (by simp; omega)
  rw [List.map_nil, List.flatten_nil, List.nil_append, List.nil_append, hcoded, hcode] at hlaw
  have hlast := List.append_cancel_left (Option.some.inj hlaw)
  simp at hlast

/-- A predictor for an image that has rows of at least one byte undoes prediction if and only if the
number of bits of a row fits into a machine word. -/
theorem undoesPrediction_iff (hkind : (10 ≤ p.kind ∧ p.kind ≤ 15) ∨ (p.kind = 2 ∧ p.bits = 8))
    (hcolors : p.colors < UInt8.size) (hsize : 0 < p.rowSize) :
    UndoesPrediction p ↔ p.columns * p.bits * p.colors < UInt64.size := by
  constructor
  · intro h
    by_contra hlarge
    have hlt : p.rowLength < p.rowSize := rowLength_lt (not_lt.mp hlarge)
    rcases hkind with ⟨hlow, hhigh⟩ | ⟨hkind, hbits⟩
    · exact not_undoesTypes hlow hhigh hlt (h.types hlow hhigh)
    · refine not_undoesDifferences hkind hbits hsize hlt ?_ (h.differences hkind hbits)
      have hlarge : UInt64.size ≤ p.columns * p.bits * p.colors := not_lt.mp hlarge
      have hwords : 8 * UInt8.size ≤ UInt64.size := by decide
      rw [rowSize]
      omega
  · intro hfits
    have heq : p.rowLength = p.rowSize := rowLength_eq hfits
    refine ⟨fun hlow hhigh => ?_, fun hkind hbits => ?_⟩
    · exact undoesTypes hlow hhigh hsize heq
    · exact undoesDifferences hkind hbits hsize heq

theorem undoesPrediction_rgb :
    (10 ≤ 12 ∧ 12 ≤ 15) ∧ 3 < UInt8.size ∧ 0 < rowSize ⟨12, 3, 8, 640⟩ ∧
      UndoesPrediction ⟨12, 3, 8, 640⟩ := by
  have hkind : 10 ≤ 12 ∧ 12 ≤ 15 := by omega
  have hcolors : 3 < UInt8.size := by decide
  have hsize : 0 < rowSize ⟨12, 3, 8, 640⟩ := by decide
  exact ⟨hkind, hcolors, hsize, (undoesPrediction_iff (.inl hkind) hcolors hsize).mpr (by decide)⟩

/-- Rows of a byte more than two to the power of 61 are not told from rows of one byte: the incomplete
row of the type 0 with the byte 5 is not dropped. -/
theorem not_forall_undoesPrediction :
    ¬ ∀ p : Predictor, (10 ≤ p.kind ∧ p.kind ≤ 15) ∨ (p.kind = 2 ∧ p.bits = 8) →
      p.colors < UInt8.size → 0 < p.rowSize → UndoesPrediction p := by
  intro h
  have htypes := (h ⟨12, 1, 8, 2305843009213693953⟩ (.inl (by decide)) (by decide) (by decide)).types
    (by decide) (by decide)
  have hdropped := htypes.undo?_codedRows [] [0, 5] (by simp) (by decide)
  revert hdropped
  decide +kernel

end Predictor

end Folio.Filter
