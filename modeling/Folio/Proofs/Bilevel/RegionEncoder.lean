import Folio.Bilevel.Region
import Folio.Proofs.Bilevel.ArithmeticEncoder
import Folio.Proofs.Bilevel.Reader

/-!
# Encoding generic regions

The encoder that belongs to the decoder of regions in arithmetic coding. It finds the context of a
pixel in the whole bitmap. With typical prediction it may mark rows that equal the one before them, and
codes for each row whether its mark differs from the one before.

Main statements: a region is read back from the data of its segment if it is valid, and all regions in
arithmetic coding that are read are.
-/

namespace Folio.Bilevel

/-- Whether a row of a bitmap equals the one before it, which is white before the first. -/
def Bitmap.repeatsRow (b : Bitmap) (y : Nat) : Bool :=
  (List.range b.width).all fun (x : Nat) => b.get x y == b.get x ((y : Int) - 1)

/-- The mark of the row before a row. -/
def markBefore (marked : Nat → Bool) : Nat → Bool
  | 0 => false
  | y + 1 => marked y

namespace Region

/-- The context and the color of a pixel. -/
def pixelDecision (r : Region) (b : Bitmap) (y x : Nat) : Nat × Bool :=
  (context b r.offsets x y, b.get x y)

/-- The bits that are coded for a row and their contexts. A marked row has no pixels. -/
def rowDecisions (r : Region) (markContext : Nat) (marked : Nat → Bool) (b : Bitmap) (y : Nat) :
    List (Nat × Bool) :=
  let pixels := (List.range b.width).map (r.pixelDecision b y)
  if r.typicalPrediction then
    (markContext, markBefore marked y != marked y) :: if marked y then [] else pixels
  else pixels

/-- The bits that are coded for a bitmap and their contexts. -/
def decisions (r : Region) (markContext : Nat) (marked : Nat → Bool) (b : Bitmap) :
    List (Nat × Bool) :=
  (List.range b.height).flatMap (r.rowDecisions markContext marked b)

/-- The coded pixels of a bitmap. -/
def encode (r : Region) (markContext : Nat) (marked : Nat → Bool) (b : Bitmap) : Bytes :=
  (encodeAll .start (fun _ => {}) (r.decisions markContext marked b)).finish

end Region

/-! ## The data of a segment -/

/-- The number of a combination. -/
def Combination.code : Combination → Nat
  | or => 0
  | and => 1
  | xor => 2
  | xnor => 3
  | replace => 4

/-- The beginning of a region segment. -/
def RegionInfo.code (info : RegionInfo) : Bytes :=
  Bytes.ofNatBE 4 info.width ++ (Bytes.ofNatBE 4 info.height ++
    (Bytes.ofNatBE 4 info.x ++ (Bytes.ofNatBE 4 info.y ++ Bytes.ofNatBE 1 info.combination.code)))

/-- The bytes of the distances of a pixel. -/
def distanceCode (distance : Int × Int) : Bytes :=
  Bytes.ofNatBE 1 (distance.1 % 256).toNat ++ Bytes.ofNatBE 1 (distance.2 % 256).toNat

/-- The number of adaptive pixels of a template. -/
def adaptiveCount (template : Nat) : Nat := if template = 0 then 4 else 1

namespace Region

/-- The flags of a region. -/
def flags (r : Region) : Nat :=
  r.faxCoded.toNat + r.template * 2 + r.typicalPrediction.toNat * 8

/-- The data of the segment of a region. -/
def code (r : Region) : Bytes :=
  r.info.code ++ (Bytes.ofNatBE 1 r.flags ++ (r.adaptivePixels.flatMap distanceCode ++ r.data))

/-- Whether an adaptive pixel comes before the pixel being decoded, at a distance that fits into a
byte. -/
def Precedes (distance : Int × Int) : Prop :=
  (-128 ≤ distance.1 ∧ distance.1 ≤ 127) ∧ -128 ≤ distance.2 ∧
    (distance.2 < 0 ∨ distance.2 = 0 ∧ distance.1 < 0)

instance : DecidablePred Precedes := fun _ => inferInstanceAs (Decidable (_ ∧ _))

/-- What a segment can say about a region in arithmetic coding. -/
structure Valid (r : Region) : Prop where
  width_lt : r.info.width < 256 ^ 4
  height_lt : r.info.height < 256 ^ 4
  x_lt : r.info.x < 256 ^ 4
  y_lt : r.info.y < 256 ^ 4
  size_le : r.info.width * r.info.height ≤ maxPixels
  arithmetic : r.faxCoded = false
  template_lt : r.template < 4
  length_adaptivePixels : r.adaptivePixels.length = adaptiveCount r.template
  precedes : ∀ distance ∈ r.adaptivePixels, Precedes distance

theorem Valid.withData {r : Region} (h : r.Valid) (data : Bytes) : { r with data }.Valid :=
  ⟨h.width_lt, h.height_lt, h.x_lt, h.y_lt, h.size_le, h.arithmetic, h.template_lt,
    h.length_adaptivePixels, h.precedes⟩

end Region

theorem RegionInfo.read_append {info : RegionInfo} (hwidth : info.width < 256 ^ 4)
    (hheight : info.height < 256 ^ 4) (hx : info.x < 256 ^ 4) (hy : info.y < 256 ^ 4)
    (hsize : info.width * info.height ≤ maxPixels) (rest : Bytes) :
    RegionInfo.read (info.code ++ rest) = .ok (info, rest) := by
  have hcombination : Combination.ofNat? (info.combination.code % 8) = some info.combination := by
    cases info.combination <;> rfl
  have hcode : info.combination.code < 256 ^ 1 := by
    cases info.combination <;> decide
  have hcheck : checkSize info.width info.height = .ok () := if_neg (Nat.not_lt.mpr hsize)
  unfold RegionInfo.read
  simp only [Reader.bind_eq_ok, Reader.number_eq_ok]
  refine ⟨_, _, ⟨hwidth, List.append_assoc _ _ _⟩, _, _, ⟨hheight, List.append_assoc _ _ _⟩,
    _, _, ⟨hx, List.append_assoc _ _ _⟩, _, _, ⟨hy, List.append_assoc _ _ _⟩, _, _, ⟨hcode, rfl⟩, ?_⟩
  rw [hcombination]
  dsimp only
  rw [hcheck]
  rfl

theorem Reader.signedByte_append {n : Int} (hlow : -128 ≤ n) (hhigh : n ≤ 127) (rest : Bytes) :
    Reader.signedByte (Bytes.ofNatBE 1 (n % 256).toNat ++ rest) = .ok (n, rest) := by
  unfold signedByte
  simp only [bind_eq_ok, number_eq_ok, pure_eq_ok]
  refine ⟨_, rest, ⟨by omega, rfl⟩, ?_, rfl⟩
  split
  · omega
  · omega

namespace Region

theorem readAdaptivePixels_append {distances : List (Int × Int)}
    (h : ∀ distance ∈ distances, Precedes distance) (rest : Bytes) :
    readAdaptivePixels distances.length (distances.flatMap distanceCode ++ rest) =
      .ok (distances, rest) := by
  induction distances with
  | nil => rfl
  | cons distance distances ih =>
    obtain ⟨⟨⟨hxlow, hxhigh⟩, hylow, hbefore⟩, hrest⟩ := List.forall_mem_cons.mp h
    have hafter : ¬ (distance.2 > 0 ∨ distance.2 = 0 ∧ distance.1 ≥ 0) := by omega
    have hdata : (distance :: distances).flatMap distanceCode ++ rest =
        Bytes.ofNatBE 1 (distance.1 % 256).toNat ++ (Bytes.ofNatBE 1 (distance.2 % 256).toNat ++
          (distances.flatMap distanceCode ++ rest)) := by
      simp only [List.flatMap_cons, distanceCode, List.append_assoc]
    rw [hdata, List.length_cons, readAdaptivePixels]
    simp only [Reader.bind_eq_ok]
    refine ⟨_, _, Reader.signedByte_append hxlow hxhigh _, _, _,
      Reader.signedByte_append hylow (by omega) _, ?_⟩
    rw [if_neg hafter]
    simp only [Reader.bind_eq_ok, Reader.pure_eq_ok]
    exact ⟨_, _, ih hrest, rfl, rfl⟩

theorem flags_spec {r : Region} (h : r.Valid) :
    r.flags < 256 ∧ (r.flags % 2 == 1) = r.faxCoded ∧ r.flags / 2 % 4 = r.template ∧
      r.flags / 16 % 2 ≠ 1 ∧ (r.flags / 8 % 2 == 1) = r.typicalPrediction := by
  have htemplate := h.template_lt
  unfold flags
  rw [h.arithmetic]
  cases r.typicalPrediction with
  | true => refine ⟨?_, ?_, ?_, ?_, ?_⟩ <;> simp <;> omega
  | false => refine ⟨?_, ?_, ?_, ?_, ?_⟩ <;> simp <;> omega

/-- A region is read back from the data of its segment. -/
theorem parse_code {r : Region} (h : r.Valid) (unknownLength : Bool) :
    parse r.code unknownLength = if unknownLength then r.dropRowCount else .ok r := by
  obtain ⟨hflags, hfax, htemplate, hextended, htypical⟩ := flags_spec h
  have hinfo := RegionInfo.read_append h.width_lt h.height_lt h.x_lt h.y_lt h.size_le
  have hnumber := @Reader.number_append 1 r.flags (by omega)
  have hpixels : readAdaptivePixels (if r.faxCoded then 0 else if r.template = 0 then 4 else 1)
      (r.adaptivePixels.flatMap distanceCode ++ r.data) = .ok (r.adaptivePixels, r.data) := by
    have hread := readAdaptivePixels_append h.precedes r.data
    rw [h.length_adaptivePixels, adaptiveCount] at hread
    rw [h.arithmetic, if_neg Bool.false_ne_true, hread]
  unfold parse code
  simp only [bind, Except.bind, hinfo, hnumber, hfax, htemplate, hextended, htypical, hpixels,
    if_false]

end Region

/-! ## Regions that are read -/

variable {data rest : Bytes}

theorem RegionInfo.bounds_of_read {info : RegionInfo} (h : RegionInfo.read data = .ok (info, rest)) :
    (info.width < 256 ^ 4 ∧ info.height < 256 ^ 4 ∧ info.x < 256 ^ 4 ∧ info.y < 256 ^ 4) ∧
      info.width * info.height ≤ maxPixels := by
  unfold RegionInfo.read at h
  simp only [Reader.bind_eq_ok, Reader.number_eq_ok] at h
  obtain ⟨width, _, ⟨hwidth, -⟩, height, _, ⟨hheight, -⟩, x, _, ⟨hx, -⟩, y, _, ⟨hy, -⟩,
    flags, _, -, h⟩ := h
  cases hcombination : Combination.ofNat? (flags % 8) with
  | none =>
    rw [hcombination] at h
    exact absurd h Reader.throw_ne_ok
  | some combination =>
    rw [hcombination] at h
    by_cases hsize : maxPixels < width * height
    · rw [checkSize, if_pos hsize] at h
      cases h
    · rw [checkSize, if_neg hsize] at h
      cases h
      exact ⟨⟨hwidth, hheight, hx, hy⟩, Nat.not_lt.mp hsize⟩

theorem Reader.bounds_of_signedByte {n : Int} (h : Reader.signedByte data = .ok (n, rest)) :
    -128 ≤ n ∧ n ≤ 127 := by
  unfold signedByte at h
  simp only [bind_eq_ok, number_eq_ok, pure_eq_ok] at h
  obtain ⟨byte, _, ⟨hbyte, -⟩, rfl, -⟩ := h
  split
  · omega
  · omega

namespace Region

theorem precedes_of_read {count : Nat} {distances : List (Int × Int)}
    (h : readAdaptivePixels count data = .ok (distances, rest)) :
    distances.length = count ∧ ∀ distance ∈ distances, Precedes distance := by
  induction count generalizing data rest distances with
  | zero =>
    obtain ⟨rfl, -⟩ := Reader.pure_eq_ok.mp h
    exact ⟨rfl, fun _ hdistance => absurd hdistance List.not_mem_nil⟩
  | succ count ih =>
    rw [readAdaptivePixels] at h
    simp only [Reader.bind_eq_ok] at h
    obtain ⟨x, _, hx, y, _, hy, h⟩ := h
    split at h
    · obtain ⟨_, _, hthrow, -⟩ := Reader.bind_eq_ok.mp h
      exact absurd hthrow Reader.throw_ne_ok
    · rename_i hafter
      simp only [Reader.bind_eq_ok, Reader.pure_eq_ok] at h
      obtain ⟨others, _, hothers, rfl, -⟩ := h
      obtain ⟨hlength, hprecedes⟩ := ih hothers
      have hxbounds := Reader.bounds_of_signedByte hx
      have hybounds := Reader.bounds_of_signedByte hy
      refine ⟨by rw [List.length_cons, hlength], List.forall_mem_cons.mpr ⟨?_, hprecedes⟩⟩
      exact ⟨hxbounds, hybounds.1, by omega⟩

/-- What is read in arithmetic coding is valid. -/
theorem Valid.of_parse {r : Region} (h : parse data false = .ok r) (harithmetic : r.faxCoded = false) :
    r.Valid := by
  unfold parse at h
  simp only [Reader.attempt_bind_eq_ok] at h
  obtain ⟨⟨info, _⟩, hinfo, ⟨flags, _⟩, -, h⟩ := h
  dsimp only at h
  by_cases hextended : flags / 16 % 2 = 1
  · rw [if_pos hextended] at h
    cases h
  · rw [if_neg hextended, Reader.attempt_bind_eq_ok] at h
    obtain ⟨⟨distances, _⟩, hpixels, h⟩ := h
    cases h
    rw [if_neg (Bool.eq_false_iff.mp harithmetic)] at hpixels
    obtain ⟨⟨hwidth, hheight, hx, hy⟩, hsize⟩ := RegionInfo.bounds_of_read hinfo
    obtain ⟨hlength, hprecedes⟩ := precedes_of_read hpixels
    exact ⟨hwidth, hheight, hx, hy, hsize, harithmetic, Nat.mod_lt _ (by decide), hlength, hprecedes⟩

end Region

end Folio.Bilevel
