import Folio.Bilevel.Page
import Folio.Proofs.Bilevel.Bitmap

/-!
# Composing a page

A page is made by operations on it, one after the other: regions are painted and stripes end. The
height of a page that is not stated follows from the operations, and so the page may grow in between.

Main statements: a page has the height that all operations together ask for, each of its pixels goes
through the operations by itself, starting with the color of the page, and growing in between makes no
difference.
-/

namespace Folio.Bilevel

/-- An operation on a page. -/
inductive PageOperation where
  | paint (region : Bitmap) (info : RegionInfo)
  | endStripe (lastRow : Nat)

namespace PageOperation

/-- The page after an operation. -/
def perform (p : Page) : PageOperation → Except Error Page
  | paint region info => p.paint region info
  | endStripe lastRow => p.endStripe lastRow

/-- The height that a page needs for an operation. -/
def bottom : PageOperation → Nat
  | paint region info => boundedAdd info.y region.height
  | endStripe lastRow => boundedAdd lastRow 1

/-- The color of a pixel after an operation. -/
def color (x y : Nat) (below : Bool) : PageOperation → Bool
  | paint region info =>
    if info.x ≤ x ∧ x < info.x + region.width ∧ info.y ≤ y ∧ y < info.y + region.height then
      info.combination.apply below (region.get ((x : Int) - info.x) ((y : Int) - info.y))
    else below
  | endStripe _ => below

/-- The largest of the heights that a page needs. -/
def lowest (operations : List PageOperation) : Nat := (operations.map bottom).foldl max 0

end PageOperation

namespace PageInfo

open PageOperation

variable {info : PageInfo} {operations : List PageOperation}

/-- The page after some operations. -/
def compose (info : PageInfo) (operations : List PageOperation) : Except Error Page := do
  operations.foldlM perform (← Page.ofInfo info)

/-- The height of the page in the end. -/
def finalHeight (info : PageInfo) (operations : List PageOperation) : Nat :=
  info.height.getD (lowest operations)

/-- The color of a pixel after all operations. -/
def color (info : PageInfo) (operations : List PageOperation) (x y : Nat) : Bool :=
  operations.foldl (PageOperation.color x y) info.background

/-- The page with all its colors known at once. -/
def composed (info : PageInfo) (operations : List PageOperation) : Page :=
  ⟨info, .ofFn info.width (info.finalHeight operations) info.background (info.color operations)⟩

end PageInfo

open PageOperation PageInfo

variable {info : PageInfo} {operations : List PageOperation} {operation : PageOperation}

/-! ## One more operation -/

theorem lowest_append_singleton :
    lowest (operations ++ [operation]) = max (lowest operations) operation.bottom := by
  simp [lowest, List.foldl_append]

theorem color_append_singleton (x y : Nat) :
    info.color (operations ++ [operation]) x y =
      operation.color x y (info.color operations x y) := by
  simp [PageInfo.color, List.foldl_append]

/-- Below its bottom an operation changes nothing. -/
theorem PageOperation.color_of_bottom_le {x y : Nat} {below : Bool}
    (h : operation.bottom ≤ y) (hy : y < maxField) : operation.color x y below = below := by
  cases operation with
  | paint region regionInfo =>
    refine if_neg fun hcovered => ?_
    simp only [bottom, boundedAdd] at h
    omega
  | endStripe lastRow => rfl

theorem bottom_le_maxField : operation.bottom ≤ maxField := by
  cases operation with
  | paint region regionInfo => exact Nat.min_le_right _ _
  | endStripe lastRow => exact Nat.min_le_right _ _

theorem lowest_le_maxField : lowest operations ≤ maxField := by
  induction operations using List.reverseRecOn with
  | nil => exact Nat.zero_le _
  | append_singleton operations operation ih =>
    rw [lowest_append_singleton]
    exact Nat.max_le.mpr ⟨ih, bottom_le_maxField⟩

/-- Below all operations the page has its own color. -/
theorem color_of_lowest_le {x y : Nat} (h : lowest operations ≤ y) (hy : y < maxField) :
    info.color operations x y = info.background := by
  induction operations using List.reverseRecOn with
  | nil => rfl
  | append_singleton operations operation ih =>
    rw [lowest_append_singleton, Nat.max_le] at h
    rw [color_append_singleton, ih h.1, color_of_bottom_le h.2 hy]

/-! ## Runs of operations -/

theorem checkSize_bind {α : Type} (width height : Nat) (next : Except Error α) :
    (do checkSize width height; next) =
      if maxPixels < width * height then .error .overflow else next := by
  unfold checkSize
  split
  · rfl
  · rfl

theorem ofInfo_eq (info : PageInfo) :
    Page.ofInfo info = if maxPixels < info.width * info.finalHeight [] then .error .overflow
      else .ok (info.composed []) := by
  unfold Page.ofInfo
  dsimp only
  rw [checkSize_bind, Bitmap.blank_eq_ofFn]
  rfl

/-- A page of unknown height is as large as all operations so far ask for. -/
theorem finalHeight_of_none (h : info.height = none) :
    info.finalHeight operations = lowest operations := by
  rw [finalHeight, h, Option.getD_none]

theorem finalHeight_of_some {height : Nat} (h : info.height = some height) :
    info.finalHeight operations = height := by
  rw [finalHeight, h, Option.getD_some]

/-- Growing a page to the bottom of one more operation. -/
theorem grow_composed (hsize : info.width * info.finalHeight operations ≤ maxPixels) :
    (info.composed operations).grow operation.bottom =
      if maxPixels < info.width * info.finalHeight (operations ++ [operation]) then .error .overflow
      else .ok ⟨info, .ofFn info.width (info.finalHeight (operations ++ [operation]))
        info.background (info.color operations)⟩ := by
  unfold Page.grow
  cases hheight : info.height with
  | some height =>
    rw [finalHeight_of_some hheight] at hsize ⊢
    rw [if_pos (by rw [composed, hheight]; rfl), if_neg (Nat.not_lt.mpr hsize), composed,
      finalHeight_of_some hheight]
  | none =>
    rw [finalHeight_of_none hheight] at hsize ⊢
    have hlarge : maxPixels < info.width * operation.bottom ↔
        maxPixels < info.width * max (lowest operations) operation.bottom := by
      rw [← Nat.mul_max_mul_left]
      omega
    -- no operation so far has reached the rows that are added
    have hcolors : ∀ x y, x < info.width → y < max (lowest operations) operation.bottom →
        (if y < lowest operations then info.color operations x y else info.background) =
          info.color operations x y := by
      intro x y _ hy
      have hmax : max (lowest operations) operation.bottom ≤ maxField :=
        Nat.max_le.mpr ⟨lowest_le_maxField, bottom_le_maxField⟩
      split
      · rfl
      · rename_i hle
        exact (color_of_lowest_le (Nat.le_of_not_lt hle) (hy.trans_le hmax)).symm
    rw [if_neg (by rw [composed, hheight]; decide), checkSize_bind, lowest_append_singleton]
    dsimp only [composed]
    rw [Bitmap.grow_ofFn, finalHeight_of_none hheight, Bitmap.ofFn_congr hcolors]
    simp only [hlarge]

/-- What an operation does to a page whose colors are known. -/
theorem perform_composed (hsize : info.width * info.finalHeight operations ≤ maxPixels) :
    operation.perform (info.composed operations) =
      if maxPixels < info.width * info.finalHeight (operations ++ [operation]) then .error .overflow
      else .ok (info.composed (operations ++ [operation])) := by
  have hgrow := @grow_composed info operations operation hsize
  have hcolor : info.color (operations ++ [operation]) = fun x y =>
      operation.color x y (info.color operations x y) :=
    funext fun x => funext fun y => color_append_singleton x y
  cases operation with
  | paint region regionInfo =>
    rw [bottom] at hgrow
    rw [perform, Page.paint, hgrow, composed, hcolor]
    split
    · rfl
    · simp only [bind, Except.bind, Bitmap.paint_ofFn]
      rfl
  | endStripe lastRow =>
    rw [bottom] at hgrow
    rw [perform, Page.endStripe, hgrow, composed, hcolor]
    rfl

theorem finalHeight_le_append (info : PageInfo) (operations : List PageOperation)
    (operation : PageOperation) :
    info.finalHeight operations ≤ info.finalHeight (operations ++ [operation]) := by
  cases hheight : info.height with
  | some height => rw [finalHeight_of_some hheight, finalHeight_of_some hheight]
  | none =>
    rw [finalHeight_of_none hheight, finalHeight_of_none hheight, lowest_append_singleton]
    exact Nat.le_max_left _ _

/-- A composition fails only if the page gets too large in the end. -/
theorem compose_eq (info : PageInfo) (operations : List PageOperation) :
    info.compose operations =
      if maxPixels < info.width * info.finalHeight operations then .error .overflow
      else .ok (info.composed operations) := by
  induction operations using List.reverseRecOn with
  | nil =>
    rw [compose, ofInfo_eq]
    split
    · rfl
    · rfl
  | append_singleton operations operation ih =>
    have happend : info.compose (operations ++ [operation]) =
        (info.compose operations >>= fun p => operation.perform p) := by
      simp [compose, List.foldlM_append]
    have hle := Nat.mul_le_mul_left info.width (finalHeight_le_append info operations operation)
    rw [happend, ih]
    split
    · -- a page that was too large before does not get smaller
      rw [if_pos (by omega)]
      rfl
    · rename_i hsize
      exact perform_composed (Nat.le_of_not_lt hsize)

/-- The page as large as it gets, from the start. -/
theorem composed_withHeight (info : PageInfo) (operations : List PageOperation) :
    let stated := { info with height := some (info.finalHeight operations) }
    stated.composed operations = ⟨stated, (info.composed operations).bitmap⟩ := rfl

/-- The operations succeed exactly if the page does not get too large. The page then has the height that
is stated or else the largest that an operation asks for, each pixel has gone through all operations,
and a page of that height from the start becomes the same. -/
theorem compose_spec (info : PageInfo) (operations : List PageOperation) :
    ((∃ p, info.compose operations = .ok p) ↔
      info.width * info.finalHeight operations ≤ maxPixels) ∧
    ∀ p, info.compose operations = .ok p →
      p.bitmap.width = info.width ∧
      p.bitmap.height = info.finalHeight operations ∧
      (∀ x y : Nat, x < p.bitmap.width → y < p.bitmap.height →
        p.bitmap.get x y = info.color operations x y) ∧
      (0 < p.bitmap.width → 0 < p.bitmap.height → p.finish = .ok p.bitmap) ∧
      let stated := { info with height := some p.bitmap.height }
      stated.compose operations = .ok ⟨stated, p.bitmap⟩ := by
  by_cases hsize : maxPixels < info.width * info.finalHeight operations
  · rw [compose_eq, if_pos hsize]
    refine ⟨⟨?_, fun hle => absurd hsize (Nat.not_lt.mpr hle)⟩, ?_⟩
    · rintro ⟨p, hp⟩
      cases hp
    · intro p hp
      cases hp
  · rw [compose_eq, if_neg hsize]
    refine ⟨⟨fun _ => Nat.le_of_not_lt hsize, fun _ => ⟨_, rfl⟩⟩, ?_⟩
    rintro p hp
    cases hp
    refine ⟨rfl, rfl, fun x y hx hy => Bitmap.get_ofFn hx hy, fun hwidth hheight => ?_, ?_⟩
    · rw [Page.finish, if_neg (by omega)]
    · dsimp only [composed, Bitmap.height_ofFn]
      rw [compose_eq, composed_withHeight, if_neg]
      · rfl
      · exact hsize

/-- A black pixel that is painted on a black page of unknown height, before and after it grows. -/
theorem compose_spec_dots :
    let dot : Bitmap := ⟨1, 1, #[true], false⟩
    let info : PageInfo := ⟨2, none, true⟩
    let operations : List PageOperation :=
      [.paint dot ⟨1, 1, 1, 0, .xor⟩, .endStripe 1, .paint dot ⟨1, 1, 0, 2, .xnor⟩]
    ∃ p, info.compose operations = .ok p ∧ p.bitmap.height = 3 ∧
      p.bitmap.get 1 0 = info.color operations 1 0 ∧ info.color operations 1 0 = false ∧
      PageInfo.compose ⟨2, some 3, true⟩ operations = .ok ⟨⟨2, some 3, true⟩, p.bitmap⟩ := by
  intro dot info operations
  have hcompose : info.compose operations = .ok (info.composed operations) := by
    rw [compose_eq, if_neg (by decide)]
  obtain ⟨-, hheight, hget, -, hstated⟩ := (compose_spec info operations).2 _ hcompose
  exact ⟨_, hcompose, hheight, hget 1 0 (by decide) (by decide), rfl, hstated⟩

end Folio.Bilevel
