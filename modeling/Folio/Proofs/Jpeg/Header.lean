import Folio.Jpeg.Marker
import Folio.Proofs.Bytes

/-!
# Headers of photographic images

The header of a photograph is a list of segments before the marker of its scan. Main statement:
`findMarkings?_header`, the search for markings goes from segment to segment, so it finds what the last segments of
their kinds say, and nothing after the header matters.
-/

namespace Folio.Jpeg

/-! ## Segments -/

/-- Whether a segment with a length follows a marker, and the search does not end there. -/
def isSegmentMarker (marker : UInt8) : Bool :=
  marker != 0x00 && marker != 0x01 && marker != 0xFF && !(0xD0 ≤ marker && marker ≤ 0xDA)

/-- A segment of a header. -/
structure Segment where
  /-- How many fill bytes come before the marker. -/
  fill : Nat := 0
  marker : UInt8
  /-- The data after the length. -/
  data : Bytes

namespace Segment

/-- The bytes of a segment. Its length counts the two bytes that state it. -/
def encode (s : Segment) : Bytes :=
  List.replicate s.fill 0xFF ++ 0xFF :: s.marker :: (Bytes.ofNatBE 2 (s.data.length + 2) ++ s.data)

/-- The number of components that the segment of a frame states. -/
def components (s : Segment) : Nat := (s.data.getD 5 0).toNat

/-- The identifiers of the components of a frame, each the first of three bytes. -/
def ids (s : Segment) : Bytes := (List.range s.components).map fun i => s.data.getD (6 + 3 * i) 0

/-- Whether the segment begins a frame. -/
def isFrame (s : Segment) : Bool := isFrameMarker s.marker

/-- Whether the segment states a transform. -/
def StatesTransform (s : Segment) : Prop :=
  s.marker = 0xEE ∧ 12 ≤ s.data.length ∧ Bytes.ofAscii "Adobe" <+: s.data

instance (s : Segment) : Decidable s.StatesTransform := inferInstanceAs (Decidable (_ ∧ _ ∧ _))

/-- The transform that a segment states. -/
def transform (s : Segment) : UInt8 := s.data.getD 11 0

/-- Whether a segment can be written, and is as long as its components take if it begins a frame. -/
structure WellFormed (s : Segment) : Prop where
  marker : isSegmentMarker s.marker = true
  fits : s.data.length + 2 < 256 ^ 2
  frame : s.isFrame = true → s.data.length = 6 + 3 * s.components

instance (s : Segment) : Decidable s.WellFormed :=
  decidable_of_iff (_ ∧ _ ∧ _) ⟨fun ⟨hmarker, hfits, hframe⟩ => ⟨hmarker, hfits, hframe⟩,
    fun h => ⟨h.marker, h.fits, h.frame⟩⟩

end Segment

/-- The bytes of a header up to the marker of the scan, which has some fill bytes before it, too. -/
def header (segments : List Segment) (fill : Nat) : Bytes :=
  0xFF :: 0xD8 :: (segments.flatMap Segment.encode ++ (List.replicate fill 0xFF ++ [0xFF, 0xDA]))

/-- What the segments of a header say: the last segment of each kind counts. -/
def markingsOf (segments : List Segment) : Option Markings :=
  (segments.filter (·.isFrame)).getLast?.map fun frame =>
    { transform := (segments.filter (·.StatesTransform)).getLast?.map Segment.transform
      componentIds := some frame.ids }

/-! ## One segment -/

variable {s : Segment} {m : Markings} {rest : Bytes} {fuel : Nat}

theorem exists_fill_eq (fill : Nat) (b c : UInt8) (rest : Bytes) :
    ∃ y z tail, List.replicate fill 0xFF ++ b :: c :: rest = y :: z :: tail := by
  match fill with
  | 0 => exact ⟨b, c, rest, rfl⟩
  | 1 => exact ⟨0xFF, b, c :: rest, rfl⟩
  | fill + 2 => exact ⟨0xFF, 0xFF, List.replicate fill 0xFF ++ b :: c :: rest, rfl⟩

/-- Fill bytes are skipped one by one. -/
theorem searchSegments?_fill (m : Markings) (fuel fill : Nat) (b c d : UInt8) (rest : Bytes) :
    searchSegments? (fuel + fill) m (List.replicate fill 0xFF ++ 0xFF :: b :: c :: d :: rest) =
      searchSegments? fuel m (0xFF :: b :: c :: d :: rest) := by
  induction fill with
  | zero => rfl
  | succ fill ih =>
    obtain ⟨y, z, tail, heq⟩ := exists_fill_eq fill b c (d :: rest)
    have hnext : List.replicate fill 0xFF ++ 0xFF :: b :: c :: d :: rest = 0xFF :: y :: z :: tail := by
      rw [← heq, List.append_cons, ← List.replicate_succ', List.replicate_succ, List.cons_append]
    rw [List.replicate_succ, List.cons_append, ← ih, hnext, ← Nat.add_assoc, searchSegments?]
    simp

/-- The search ends at the marker of the scan, if two more bytes follow. -/
theorem searchSegments?_scan (m : Markings) (fuel fill : Nat) {after : Bytes} (h : 2 ≤ after.length) :
    searchSegments? (fuel + 1 + fill) m (List.replicate fill 0xFF ++ 0xFF :: 0xDA :: after) = some m := by
  match after, h with
  | c :: d :: after, _ =>
    rw [searchSegments?_fill, searchSegments?]
    simp [isFinalMarker]

/-- The markings with what one more segment says. -/
def Markings.add (m : Markings) (s : Segment) : Markings :=
  { transform := if s.StatesTransform then some s.transform else m.transform
    componentIds := if s.isFrame then some s.ids else m.componentIds }

theorem transformOf?_eq (s : Segment) (h : s.marker = 0xEE) :
    transformOf? s.data = if s.StatesTransform then some s.transform else none := by
  have hadobe : s.data.take 5 = Bytes.ofAscii "Adobe" ↔ Bytes.ofAscii "Adobe" <+: s.data := by
    rw [List.prefix_iff_eq_take, eq_comm]
    rfl
  unfold transformOf? Segment.StatesTransform
  simp only [h, hadobe, true_and]
  split
  · rename_i hstates
    rw [Segment.transform, List.getD_eq_getElem _ _ hstates.1, List.getElem?_eq_getElem hstates.1]
  · rfl

theorem Segment.WellFormed.frameIds?_eq (h : s.WellFormed) (hframe : s.isFrame = true) (high low : UInt8) :
    frameIds? (0xFF :: s.marker :: high :: low :: (s.data ++ rest)) = some s.ids := by
  have hlen := h.frame hframe
  have hplace (i : Nat) (hi : i < s.data.length) :
      (0xFF :: s.marker :: high :: low :: (s.data ++ rest))[4 + i]? = some (s.data.getD i 0) := by
    rw [Nat.add_comm 4 i, List.getElem?_cons_succ, List.getElem?_cons_succ, List.getElem?_cons_succ,
      List.getElem?_cons_succ, List.getElem?_append_left hi, List.getElem?_eq_getElem hi,
      List.getD_eq_getElem _ _ hi]
  have hids : ∀ i ∈ List.range s.components,
      (0xFF :: s.marker :: high :: low :: (s.data ++ rest))[10 + 3 * i]? = some (s.data.getD (6 + 3 * i) 0) := by
    intro i hi
    have hi := List.mem_range.mp hi
    rw [← hplace (6 + 3 * i) (by omega), ← Nat.add_assoc]
  rw [frameIds?, hplace 5 (by omega), Option.map_some, ← Segment.components, Segment.ids,
    List.filterMap_congr hids, List.filterMap_eq_map']

/-- What is added are the markings of the segment alone, although the data go on after it. -/
theorem Segment.WellFormed.addSegment_eq (h : s.WellFormed) (high low : UInt8) :
    m.addSegment s.marker (s.data.length + 2) (0xFF :: s.marker :: high :: low :: (s.data ++ rest)) = m.add s := by
  have hslice : Bytes.slice? (0xFF :: s.marker :: high :: low :: (s.data ++ rest)) 4 (2 + (s.data.length + 2)) =
      some s.data := by
    have hinside : 4 ≤ 2 + (s.data.length + 2) ∧
        2 + (s.data.length + 2) ≤ (0xFF :: s.marker :: high :: low :: (s.data ++ rest)).length := by
      simp only [List.length_cons, List.length_append]
      omega
    have hcount : 2 + (s.data.length + 2) - 4 = s.data.length := by omega
    rw [Bytes.slice?, if_pos hinside, hcount]
    exact congrArg some (List.take_left' rfl)
  unfold Markings.addSegment Markings.add
  by_cases hadobe : s.marker = 0xEE
  · have hframe : s.isFrame = false := by
      rw [Segment.isFrame, hadobe]
      rfl
    rw [if_pos hadobe, hslice, Option.bind_some, transformOf?_eq s hadobe, hframe]
    split <;> rfl
  · have hstates : ¬ s.StatesTransform := fun hstates => hadobe hstates.1
    rw [if_neg hadobe, if_neg hstates, ← Segment.isFrame]
    by_cases hframe : s.isFrame = true
    · rw [if_pos hframe, if_pos hframe, h.frameIds?_eq hframe, Option.some_or]
    · rw [if_neg hframe, if_neg hframe]

theorem isFinalMarker_eq_false : ∀ marker, isSegmentMarker marker = true → isFinalMarker marker = false := by
  decide +kernel

/-- The search goes over a segment to what follows it. -/
theorem Segment.WellFormed.searchSegments?_encode (h : s.WellFormed) :
    searchSegments? (fuel + 1 + s.fill) m (s.encode ++ rest) = searchSegments? fuel (m.add s) rest := by
  obtain ⟨high, low, hlength⟩ : ∃ high low, Bytes.ofNatBE 2 (s.data.length + 2) = [high, low] :=
    List.length_eq_two.mp (Bytes.length_ofNatBE _ _)
  have hvalue : Bytes.toNatBE [high, low] = s.data.length + 2 := by
    rw [← hlength, Bytes.toNatBE_ofNatBE h.fits]
  have hmarker := h.marker
  have hfill : s.marker ≠ 0xFF := fun heq => by simp [heq, isSegmentMarker] at hmarker
  have hfinal : isFinalMarker s.marker = false := isFinalMarker_eq_false s.marker hmarker
  have hdrop : (0xFF :: s.marker :: high :: low :: (s.data ++ rest)).drop (2 + (s.data.length + 2)) = rest := by
    have hcount : 2 + (s.data.length + 2) = s.data.length + 4 := by omega
    rw [hcount]
    exact List.drop_left' rfl
  rw [encode, hlength, List.append_assoc]
  simp only [List.cons_append, List.nil_append]
  rw [searchSegments?_fill, searchSegments?]
  simp only [hfill, hfinal, hvalue, h.addSegment_eq, hdrop, if_false, Bool.false_eq_true]

/-! ## The header -/

variable {segments : List Segment}

/-- The steps that the search takes over some segments, fill bytes counted one by one. -/
def steps (segments : List Segment) : Nat := (segments.map fun s => s.fill + 1).sum

theorem steps_le_length (segments : List Segment) : steps segments ≤ (segments.flatMap Segment.encode).length := by
  induction segments with
  | nil => exact Nat.le_refl 0
  | cons s segments ih =>
    have hone : s.fill + 1 ≤ s.encode.length := by
      rw [Segment.encode, List.length_append, List.length_replicate, List.length_cons]
      omega
    rw [steps, List.map_cons, List.sum_cons, ← steps, List.flatMap_cons, List.length_append]
    exact Nat.add_le_add hone ih

/-- The search goes over all segments, one after the other. -/
theorem searchSegments?_segments (h : ∀ s ∈ segments, s.WellFormed) :
    searchSegments? (fuel + steps segments) m (segments.flatMap Segment.encode ++ rest) =
      searchSegments? fuel (segments.foldl Markings.add m) rest := by
  induction segments generalizing m with
  | nil => rfl
  | cons s segments ih =>
    obtain ⟨hfirst, hrest⟩ := List.forall_mem_cons.mp h
    have hsteps : fuel + steps (s :: segments) = fuel + steps segments + 1 + s.fill := by
      rw [steps, List.map_cons, List.sum_cons, ← steps]
      omega
    rw [List.flatMap_cons, List.append_assoc, hsteps, hfirst.searchSegments?_encode, ih hrest, List.foldl_cons]

theorem getLast?_filter_append_singleton {α : Type} (p : α → Bool) (l : List α) (a : α) :
    ((l ++ [a]).filter p).getLast? = if p a then some a else (l.filter p).getLast? := by
  rw [List.filter_append, List.filter_singleton]
  cases p a with
  | true => exact List.getLast?_concat
  | false => exact congrArg List.getLast? (List.append_nil _)

/-- Of what is added, the last of each kind counts. -/
theorem foldl_add (segments : List Segment) (m : Markings) :
    segments.foldl Markings.add m =
      { transform := ((segments.filter (·.StatesTransform)).getLast?.map Segment.transform).or m.transform
        componentIds := ((segments.filter (·.isFrame)).getLast?.map Segment.ids).or m.componentIds } := by
  induction segments using List.reverseRecOn with
  | nil => rfl
  | append_singleton segments s ih =>
    rw [List.foldl_append, ih, List.foldl_cons, List.foldl_nil, Markings.add,
      getLast?_filter_append_singleton, getLast?_filter_append_singleton]
    congr 1
    · by_cases hstates : s.StatesTransform <;> simp [hstates]
    · by_cases hframe : s.isFrame = true <;> simp [hframe]

/-- The markings of a photograph are those that the last segments of its header state, whatever comes after the
marker of the scan. -/
theorem findMarkings?_header (h : ∀ s ∈ segments, s.WellFormed) (fill : Nat) {after : Bytes}
    (hafter : 2 ≤ after.length) :
    findMarkings? (header segments fill ++ after) = markingsOf segments := by
  have hsteps := steps_le_length segments
  have hlength : (header segments fill ++ after).length =
      (segments.flatMap Segment.encode).length + fill + after.length + 4 := by
    simp only [header, List.length_append, List.length_cons, List.length_replicate, List.length_nil]
    omega
  obtain ⟨fuel, hfuel⟩ : ∃ fuel, (header segments fill ++ after).length = fuel + 1 + fill + steps segments :=
    ⟨(header segments fill ++ after).length - (1 + fill + steps segments), by omega⟩
  have hsearch : searchSegments? (header segments fill ++ after).length {}
      (segments.flatMap Segment.encode ++ (List.replicate fill 0xFF ++ [0xFF, 0xDA]) ++ after) =
        some (segments.foldl Markings.add {}) := by
    rw [hfuel, List.append_assoc, searchSegments?_segments h, List.append_assoc]
    exact searchSegments?_scan _ fuel fill hafter
  have hfind : findMarkings? (header segments fill ++ after) =
      (some (segments.foldl Markings.add {})).filter (·.componentIds.isSome) := by
    rw [← hsearch]
    exact if_neg (by omega)
  rw [hfind, foldl_add, Option.or_none, Option.or_none, markingsOf]
  cases (segments.filter (·.isFrame)).getLast? with
  | none => rfl
  | some frame => rfl

/-- A transform, tables that look like a frame, a frame of three components, and a transform that is cut short. -/
def lookalikeSegments : List Segment :=
  [⟨1, 0xEE, Bytes.ofAscii "Adobe" ++ [0x00, 0x64, 0x00, 0x00, 0x00, 0x00, 0x02]⟩,
    ⟨0, 0xC4, [0xFF, 0xC0, 0x00, 0x0B, 0x08, 0x00, 0x01, 0x00, 0x01, 0x01, 0x52, 0x11, 0x00]⟩,
    ⟨2, 0xC2, [0x08, 0x00, 0x01, 0x00, 0x01, 0x03, 0x01, 0x11, 0x00, 0x02, 0x11, 0x00, 0x03, 0x11, 0x00]⟩,
    ⟨0, 0xEE, Bytes.ofAscii "Adobe" ++ [0x00, 0x64, 0x00, 0x00, 0x00, 0x00]⟩]

/-- The transform and the frame are found, and neither the tables nor what follows the header matters. -/
theorem findMarkings?_header_lookalikes :
    (∀ s ∈ lookalikeSegments, s.WellFormed) ∧
      findMarkings? (header lookalikeSegments 3 ++ [0xFF, 0xC0, 0x00, 0x0B]) =
        some { transform := some 2, componentIds := some [1, 2, 3] } := by
  have hwellFormed : ∀ s ∈ lookalikeSegments, s.WellFormed := by decide
  exact ⟨hwellFormed, findMarkings?_header hwellFormed 3 (by decide)⟩

end Folio.Jpeg
