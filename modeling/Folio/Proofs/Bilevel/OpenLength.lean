import Folio.Bilevel.Decode
import Folio.Proofs.Bilevel.ArithmeticRoundTrip
import Folio.Proofs.Bilevel.RegionEncoder
import Folio.Proofs.Bilevel.SegmentFormat

/-!
# Segments of unknown length

A region whose header leaves its length open goes on to the marker of arithmetic coding and a row count.
The marker is looked for after the flags of the region, so the adaptive pixels are searched too. They may
hold the two bytes of the marker, or the first one of them.

Main statement: the end of such a region is found if and only if its adaptive pixels and its coded pixels
together hold the marker at their end only, and then the image is the same as with the length stated.
-/

namespace Folio.Bilevel

/-! ## The marker -/

theorem markerPosition?_eq_some {marker : UInt8 × UInt8} {start position : Nat} {data : Bytes} :
    markerPosition? marker start data = some position ↔
      ∃ before after, data = before ++ marker.1 :: marker.2 :: after ∧ 4 ≤ after.length ∧
        position = start + before.length ∧
        ∀ before' after', data = before' ++ marker.1 :: marker.2 :: after' →
          before.length ≤ before'.length := by
  fun_induction markerPosition? marker start data with
  | case1 start b c rest h =>
    obtain ⟨rfl, hlen⟩ := h
    constructor
    · intro h
      obtain rfl := Option.some.inj h
      exact ⟨[], rest, rfl, hlen, rfl, fun _ _ _ => Nat.zero_le _⟩
    · rintro ⟨before, after, hdata, -, rfl, hfirst⟩
      have hzero := hfirst [] rest rfl
      rw [List.length_nil, Nat.le_zero] at hzero
      rw [hzero, Nat.add_zero]
  | case2 start b c rest h ih =>
    rw [ih]
    constructor
    · rintro ⟨before, after, hdata, hlen, rfl, hfirst⟩
      refine ⟨b :: before, after, by rw [hdata, List.cons_append], hlen, ?_, ?_⟩
      · rw [List.length_cons]
        omega
      · intro before' after' hdata'
        cases before' with
        | nil =>
          -- the marker at the front is followed by as many bytes as a later one
          obtain ⟨rfl, rfl, rfl⟩ : b = marker.1 ∧ c = marker.2 ∧ rest = after' := by
            simpa using hdata'
          have hrest : rest.length + 1 = before.length + (after.length + 2) := by
            simpa using congrArg List.length hdata
          exact absurd ⟨rfl, by omega⟩ h
        | cons b' before' =>
          obtain ⟨-, htail⟩ := List.cons.inj hdata'
          simpa using hfirst before' after' htail
    · rintro ⟨before, after, hdata, hlen, rfl, hfirst⟩
      cases before with
      | nil =>
        obtain ⟨rfl, rfl, rfl⟩ : b = marker.1 ∧ c = marker.2 ∧ rest = after := by
          simpa using hdata
        exact absurd ⟨rfl, hlen⟩ h
      | cons b' before =>
        obtain ⟨rfl, htail⟩ := List.cons.inj hdata
        refine ⟨before, after, htail, hlen, by rw [List.length_cons]; omega, ?_⟩
        intro before' after' hdata'
        simpa using hfirst (b :: before') after' (by rw [hdata', List.cons_append])
  | case3 start data h =>
    refine iff_of_false (by simp) ?_
    rintro ⟨before, after, rfl, -⟩
    cases before with
    | nil => exact h _ _ _ rfl
    | cons b before => cases before <;> exact h _ _ _ rfl

/-- Whether data have the marker of arithmetic coding at their end and nowhere before. -/
def MarkedAtEnd (data : Bytes) : Prop :=
  [0xFF, 0xAC] <:+ data ∧
    ∀ before after, data = before ++ 0xFF :: 0xAC :: after → after = []

theorem markerPosition?_append {body rest : Bytes} {start : Nat} (hend : [0xFF, 0xAC] <:+ body)
    (hrest : 4 ≤ rest.length) :
    markerPosition? (0xFF, 0xAC) start (body ++ rest) = some (start + (body.length - 2)) ↔
      MarkedAtEnd body := by
  obtain ⟨init, rfl⟩ := hend
  rw [markerPosition?_eq_some]
  simp only [List.length_append, List.length_cons, List.length_nil, Nat.zero_add,
    Nat.add_sub_cancel, Nat.add_left_cancel_iff]
  constructor
  · rintro ⟨before, after, -, -, hlen, hfirst⟩
    refine ⟨List.suffix_append _ _, fun before' after' hbody => ?_⟩
    have hle := hfirst before' (after' ++ rest) (by rw [hbody]; simp)
    have hlen' := congrArg List.length hbody
    simp only [List.length_append, List.length_cons, List.length_nil] at hlen'
    exact List.eq_nil_of_length_eq_zero (by omega)
  · rintro ⟨-, hlast⟩
    refine ⟨init, rest, by simp, hrest, rfl, fun before' after' hdata => ?_⟩
    by_contra hlt
    -- an earlier marker would lie inside the body
    have hprefix : before' ++ [0xFF, 0xAC] <+: init ++ [0xFF, 0xAC] := by
      have hdata' : before' ++ [0xFF, 0xAC] <+: init ++ [0xFF, 0xAC] ++ rest := by
        rw [hdata]
        exact ⟨after', by simp⟩
      refine List.prefix_of_prefix_length_le hdata' (List.prefix_append _ _) ?_
      simp only [List.length_append, List.length_cons, List.length_nil]
      omega
    obtain ⟨after, hbody⟩ := hprefix
    obtain rfl := hlast before' after (by rw [← hbody]; simp)
    have hlen := congrArg List.length hbody
    simp only [List.length_append, List.length_cons, List.length_nil] at hlen
    omega

namespace ArithmeticEncoder

/-- What the encoder writes has no marker before its end. -/
theorem markedAtEnd_finish {e : ArithmeticEncoder} (h : Leads .start e.flushed) :
    MarkedAtEnd e.finish := by
  obtain ⟨data, hdata⟩ := exists_finish_eq e
  refine ⟨hdata ▸ List.suffix_append _ _, fun before after hbefore => ?_⟩
  -- a marker among the bytes written would hold a byte after `FF` that is too large
  have hnone : ∀ later earlier, e.flushed.dropLast ≠ later ++ 0xAC :: 0xFF :: earlier := by
    intro later earlier hlater
    have hne : e.flushed ≠ [] := by
      intro hnil
      simp [hnil] at hlater
    have hsuffix : 0xAC :: 0xFF :: (earlier ++ [e.flushed.getLast hne]) <:+ e.flushed := by
      refine ⟨later, ?_⟩
      rw [← List.cons_append, ← List.cons_append, ← List.append_assoc, ← hlater,
        List.dropLast_append_getLast]
    have hlt := h.stuffed _ _ hsuffix (by simp [written, start])
    exact absurd hlt (by decide)
  have hreverse : (marker e.flushed).reverse ++ e.flushed.dropLast =
      after.reverse ++ 0xAC :: 0xFF :: before.reverse := by
    have hfinish := congrArg List.reverse hbefore
    rw [finish, List.reverse_append, List.tail_reverse, List.reverse_reverse] at hfinish
    simpa using hfinish
  rw [marker] at hreverse
  cases hafter : after.reverse with
  | nil => exact List.reverse_eq_nil_iff.mp hafter
  | cons b later =>
    rw [hafter] at hreverse
    split at hreverse
    · exact absurd (List.cons.inj hreverse).2 (hnone _ _)
    · cases later with
      | nil => simp at hreverse
      | cons c later => exact absurd (List.cons.inj (List.cons.inj hreverse).2).2 (hnone _ _)

end ArithmeticEncoder

/-- The coded pixels of a region have no marker before their end. -/
theorem Region.markedAtEnd_encode (r : Region) (markContext : Nat) (marked : Nat → Bool)
    (b : Bitmap) : MarkedAtEnd (r.encode markContext marked b) := by
  have hindex : ∀ k : Nat, ((fun _ => {} : Nat → BitContext) k).index < 47 :=
    fun _ => Nat.succ_pos _
  have hready : (encodeAll .start (fun _ => {}) (r.decisions markContext marked b)).Ready :=
    ArithmeticEncoder.ready_start.encodeAll hindex
  exact ArithmeticEncoder.markedAtEnd_finish
    ((ArithmeticEncoder.leads_flushed hready).of_encodeAll ArithmeticEncoder.ready_start hindex)

/-! ## Sequences of segments -/

theorem Segment.read_eq_ok {h : SegmentHeader} {s : Segment} {data rest : Bytes} :
    Segment.read h data = .ok (s, rest) ↔ s.header = h ∧ data = s.data ++ rest ∧
      h.length.elim (openLength data) .ok = .ok s.data.length := by
  obtain ⟨header, taken⟩ := s
  unfold Segment.read
  cases h.length with
  | none =>
    simp only [Reader.bind_eq_ok, Reader.pure_eq_ok, Reader.bytes_eq_ok, Reader.get_eq_ok,
      Reader.lift_eq_ok, Option.elim]
    constructor
    · rintro ⟨_, _, ⟨rfl, rfl⟩, _, _, ⟨hlen, rfl⟩, _, _, ⟨rfl, hdata⟩, hsegment, rfl⟩
      obtain ⟨rfl, rfl⟩ := Segment.mk.inj hsegment
      exact ⟨rfl, hdata, hlen⟩
    · rintro ⟨rfl, hdata, hlen⟩
      exact ⟨_, _, ⟨rfl, rfl⟩, _, _, ⟨hlen, rfl⟩, _, _, ⟨rfl, hdata⟩, rfl, rfl⟩
  | some n =>
    simp only [Reader.bind_eq_ok, Reader.pure_eq_ok, Reader.bytes_eq_ok, Option.elim]
    constructor
    · rintro ⟨_, _, ⟨rfl, rfl⟩, _, _, ⟨rfl, hdata⟩, hsegment, rfl⟩
      obtain ⟨rfl, rfl⟩ := Segment.mk.inj hsegment
      exact ⟨rfl, hdata, rfl⟩
    · rintro ⟨rfl, hdata, hlen⟩
      exact ⟨_, _, ⟨rfl, rfl⟩, _, _, ⟨(Except.ok.inj hlen).symm, hdata⟩, rfl, rfl⟩

variable {data rest : Bytes}

theorem length_lt_of_read {h : SegmentHeader} {s : Segment} {mid : Bytes}
    (hheader : SegmentHeader.read data = .ok (h, mid)) (hsegment : Segment.read h mid = .ok (s, rest)) :
    rest.length < data.length := by
  obtain ⟨code, hcode, rfl⟩ := SegmentHeader.read_eq_ok.mp hheader
  obtain ⟨-, rfl, -⟩ := Segment.read_eq_ok.mp hsegment
  have hpos := hcode.length_pos
  simp only [List.length_append]
  omega

/-- More fuel than there are bytes makes no difference. -/
theorem readSegments_eq_of_lt {fuel fuel' : Nat} (h : data.length < fuel) (h' : data.length < fuel') :
    readSegments fuel data = readSegments fuel' data := by
  induction fuel generalizing fuel' data with
  | zero => exact absurd h (Nat.not_lt_zero _)
  | succ fuel ih =>
    obtain ⟨fuel', rfl⟩ : ∃ k, fuel' = k + 1 := ⟨fuel' - 1, by omega⟩
    rw [readSegments, readSegments]
    split
    · rfl
    · cases hheader : SegmentHeader.read data with
      | error e => rfl
      | ok p =>
        obtain ⟨header, mid⟩ := p
        simp only [bind, Except.bind]
        cases hsegment : Segment.read header mid with
        | error e => rfl
        | ok q =>
          obtain ⟨segment, rest⟩ := q
          have hlt := length_lt_of_read hheader hsegment
          have hrest : readSegments fuel rest = readSegments fuel' rest :=
            ih (by omega) (by omega)
          simp only [hrest]

/-- A segment whose end is found whatever follows it, with the bytes of its header. -/
structure DelimitedSegment where
  segment : Segment
  header : Bytes
  header_code : HeaderCode segment.header header
  read_append : ∀ rest, Segment.read segment.header (segment.data ++ rest) = .ok (segment, rest)

namespace DelimitedSegment

/-- The bytes of a segment. -/
def code (d : DelimitedSegment) : Bytes := d.header ++ d.segment.data

theorem sequentialSegments_append (d : DelimitedSegment) (data : Bytes) :
    sequentialSegments (d.code ++ data) =
      if d.segment.header.kind = .endOfFile then .ok [d.segment]
      else (sequentialSegments data).map (d.segment :: ·) := by
  have hpos := d.header_code.length_pos
  have hheader : SegmentHeader.read (d.code ++ data) =
      .ok (d.segment.header, d.segment.data ++ data) :=
    SegmentHeader.read_eq_ok.mpr ⟨_, d.header_code, List.append_assoc _ _ _⟩
  have hmore : (d.code ++ data).isEmpty = false := by
    rw [List.isEmpty_eq_false_iff, ← List.length_pos_iff, code]
    simp only [List.length_append]
    omega
  rw [sequentialSegments, readSegments, hmore, hheader]
  simp only [bind, Except.bind, d.read_append, Bool.false_eq_true, if_false]
  split
  · rfl
  · have hlen : data.length < (d.code ++ data).length := by
      rw [code]
      simp only [List.length_append]
      omega
    rw [sequentialSegments, readSegments_eq_of_lt hlen (Nat.lt_succ_self _)]
    cases readSegments (data.length + 1) data <;> rfl

/-- What follows some segments matters only through the segments in it. -/
theorem sequentialSegments_congr {α : Type} {data data' : Bytes} (before : List DelimitedSegment)
    (F : List Segment → α)
    (h : ∀ first, (sequentialSegments data).map (fun rest => F (first ++ rest)) =
      (sequentialSegments data').map fun rest => F (first ++ rest)) :
    (sequentialSegments (before.flatMap code ++ data)).map F =
      (sequentialSegments (before.flatMap code ++ data')).map F := by
  induction before generalizing F with
  | nil => exact h []
  | cons d before ih =>
    rw [List.flatMap_cons, List.append_assoc, List.append_assoc, sequentialSegments_append,
      sequentialSegments_append]
    split
    · rfl
    · have hrest := ih (fun rest => F (d.segment :: rest)) fun first => h (d.segment :: first)
      cases hseq : sequentialSegments (before.flatMap code ++ data) <;>
        cases hseq' : sequentialSegments (before.flatMap code ++ data') <;>
        · rw [hseq, hseq'] at hrest
          exact hrest

end DelimitedSegment

/-- Segments that continue the page alike do so after any other segments. -/
theorem paintSegments_congr {segments segments' : List Segment}
    (h : ∀ page, paintSegments page segments = paintSegments page segments') (first : List Segment)
    (page : Option Page) :
    paintSegments page (first ++ segments) = paintSegments page (first ++ segments') := by
  induction first generalizing page with
  | nil => exact h page
  | cons s first ih => simp only [List.cons_append, paintSegments, ih]

theorem decodeSegments_congr {s s' : Segment} (hkind : s.header.kind = .genericRegion true)
    (hkind' : s'.header.kind = .genericRegion true)
    (hparse : Region.parse s.data s.header.length.isNone =
      Region.parse s'.data s'.header.length.isNone)
    (first rest : List Segment) :
    decodeSegments (first ++ s :: rest) = decodeSegments (first ++ s' :: rest) := by
  have hpaint : ∀ page, paintSegments page (s :: rest) = paintSegments page (s' :: rest) := by
    intro page
    rw [paintSegments, paintSegments, hkind, hkind']
    simp only [paintRegion, hparse]
  rw [decodeSegments, decodeSegments, paintSegments_congr hpaint]

theorem decodeEmbedded_eq (data : Bytes) (globals : Option Bytes) :
    decodeEmbedded data globals = (globals.elim (.ok []) sequentialSegments >>= fun first =>
      sequentialSegments data >>= fun segments => decodeSegments (first ++ segments)) := by
  cases globals <;> rfl

/-! ## Regions of unknown length -/

/-- An immediate region in arithmetic coding whose length is left open, and how many rows are coded. -/
structure OpenRegion where
  header : SegmentHeader
  width : Nat
  height : Nat
  x : Nat
  y : Nat
  combination : Nat
  flags : Nat
  /-- The distances of the adaptive pixels. -/
  pixels : Bytes
  coded : Bytes
  rows : Nat

namespace OpenRegion

/-- The description of the region, of a height. -/
def start (r : OpenRegion) (height : Nat) : Bytes :=
  Bytes.ofNatBE 4 r.width ++ (Bytes.ofNatBE 4 height ++ (Bytes.ofNatBE 4 r.x ++
    (Bytes.ofNatBE 4 r.y ++ (Bytes.ofNatBE 1 r.combination ++ Bytes.ofNatBE 1 r.flags))))

/-- What follows the description. -/
def body (r : OpenRegion) : Bytes := r.pixels ++ r.coded

/-- The segment with its length left open. -/
def openSegment (r : OpenRegion) : Segment :=
  ⟨{ r.header with length := none }, r.start r.height ++ (r.body ++ Bytes.ofNatBE 4 r.rows)⟩

/-- The segment with its length and the height of its rows stated. -/
def statedSegment (r : OpenRegion) : Segment :=
  ⟨{ r.header with length := some (r.start r.rows ++ r.body).length }, r.start r.rows ++ r.body⟩

/-- What the format allows. Each adaptive pixel takes two bytes. -/
structure Valid (r : OpenRegion) : Prop where
  kind_eq : r.header.kind = .genericRegion true
  width_lt : r.width < 256 ^ 4
  height_lt : r.height < 256 ^ 4
  x_lt : r.x < 256 ^ 4
  y_lt : r.y < 256 ^ 4
  combination_lt : r.combination < 256
  flags_lt : r.flags < 256
  arithmetic : r.flags % 2 = 0
  pixels_le : 2 * adaptiveCount (r.flags / 2 % 4) ≤ r.pixels.length
  size_le : r.width * r.height ≤ maxPixels
  rows_le : r.rows ≤ r.height
  coded_marked : MarkedAtEnd r.coded

variable {r : OpenRegion}

@[simp] theorem length_start (r : OpenRegion) (height : Nat) : (r.start height).length = 18 := by
  simp [start]

theorem openLength_start {height n : Nat} (h : r.Valid) (data : Bytes) :
    openLength (r.start height ++ data) = .ok n ↔
      ∃ position, markerPosition? (0xFF, 0xAC) 18 data = some position ∧ n = position + 6 := by
  have hflags : (r.start height ++ data)[17]? = some r.flags.toUInt8 := by
    rw [List.getElem?_append_left (by rw [length_start]; decide)]
    simp [start, Bytes.ofNatBE]
  have hlow : r.flags.toUInt8.toNat = r.flags := by
    rw [Nat.toUInt8, UInt8.toNat_ofNat', Nat.mod_eq_of_lt h.flags_lt]
  have heven : ¬ r.flags.toUInt8 % 2 = 1 := by
    intro hodd
    have hmod := congrArg UInt8.toNat hodd
    rw [UInt8.toNat_mod, hlow] at hmod
    exact absurd (hmod.symm.trans h.arithmetic) (by decide)
  have hdrop : (r.start height ++ data).drop 18 = data := by
    rw [← length_start r height, List.drop_left]
  rw [openLength, hflags]
  simp only [if_neg heven, hdrop]
  cases markerPosition? (0xFF, 0xAC) 18 data with
  | none => simp
  | some position => simp [eq_comm]

theorem suffix_body (h : r.Valid) : [0xFF, 0xAC] <:+ r.body :=
  h.coded_marked.1.trans (List.suffix_append _ _)

/-- The end of the region is found if the marker is at the end of what follows the description only. -/
theorem read_openSegment_iff (h : r.Valid) (rest : Bytes) :
    Segment.read r.openSegment.header (r.openSegment.data ++ rest) = .ok (r.openSegment, rest) ↔
      MarkedAtEnd r.body := by
  have hlen := (suffix_body h).length_le
  have hdata : r.openSegment.data ++ rest =
      r.start r.height ++ (r.body ++ (Bytes.ofNatBE 4 r.rows ++ rest)) := by
    simp [openSegment]
  have hlength : r.openSegment.data.length = 18 + (r.body.length - 2) + 6 := by
    simp only [openSegment, List.length_append, length_start, Bytes.length_ofNatBE]
    simp only [List.length_cons, List.length_nil] at hlen
    omega
  have hopen : r.openSegment.header.length = none := rfl
  have hrest : 4 ≤ (Bytes.ofNatBE 4 r.rows ++ rest).length := by simp
  rw [Segment.read_eq_ok, hopen, Option.elim, hdata, openLength_start h, hlength,
    ← @markerPosition?_append _ _ 18 (suffix_body h) hrest]
  constructor
  · rintro ⟨-, -, position, hposition, heq⟩
    rw [hposition, Nat.add_right_cancel heq]
  · intro hposition
    exact ⟨rfl, rfl, _, hposition, rfl⟩

theorem readInfo_start {height : Nat} (h : r.Valid) (hheight : height < 256 ^ 4)
    (hsize : r.width * height ≤ maxPixels) (rest : Bytes) :
    RegionInfo.read (r.start height ++ rest) =
      match Combination.ofNat? (r.combination % 8) with
      | none => .error .invalidRegion
      | some combination =>
        .ok (⟨r.width, height, r.x, r.y, combination⟩, Bytes.ofNatBE 1 r.flags ++ rest) := by
  have hcheck : checkSize r.width height = .ok () := if_neg (Nat.not_lt.mpr hsize)
  have hcombination := h.combination_lt
  unfold RegionInfo.read start
  simp only [bind, StateT.bind, Except.bind, List.append_assoc, Reader.number_append h.width_lt,
    Reader.number_append hheight, Reader.number_append h.x_lt, Reader.number_append h.y_lt,
    @Reader.number_append 1 _ hcombination]
  cases Combination.ofNat? (r.combination % 8) with
  | none => rfl
  | some combination =>
    simp only [hcheck]
    rfl

theorem exists_signedByte (b : UInt8) :
    ∃ n, ∀ rest, Reader.signedByte (b :: rest) = .ok (n, rest) := by
  have hnumber : ∀ rest, Reader.number 1 (b :: rest) = .ok (b.toNat, rest) := by
    intro rest
    refine Reader.number_eq_ok.mpr ⟨b.toNat_lt, ?_⟩
    simp [Bytes.ofNatBE]
  refine ⟨if b.toNat < 128 then b.toNat else (b.toNat : Int) - 256, fun rest => ?_⟩
  unfold Reader.signedByte
  simp only [bind, StateT.bind, Except.bind, hnumber]
  rfl

/-- Adaptive pixels are read without a look at what follows them. -/
theorem readAdaptivePixels_append_rest {count : Nat} {data : Bytes} (h : 2 * count ≤ data.length)
    (rest : Bytes) :
    Region.readAdaptivePixels count (data ++ rest) =
      (Region.readAdaptivePixels count data).map fun p => (p.1, p.2 ++ rest) := by
  induction count generalizing data with
  | zero => rfl
  | succ count ih =>
    obtain ⟨b, c, data, rfl⟩ : ∃ b c data', data = b :: c :: data' := by
      cases data with
      | nil => simp at h
      | cons b data =>
        cases data with
        | nil => simp at h; omega
        | cons c data => exact ⟨b, c, data, rfl⟩
    simp only [List.length_cons] at h
    obtain ⟨x, hx⟩ := exists_signedByte b
    obtain ⟨y, hy⟩ := exists_signedByte c
    simp only [Region.readAdaptivePixels, bind, StateT.bind, Except.bind, List.cons_append, hx, hy]
    by_cases hafter : y > 0 ∨ y = 0 ∧ x ≥ 0
    · simp only [if_pos hafter]
      rfl
    · have hdata : 2 * count ≤ data.length := by omega
      simp only [if_neg hafter, StateT.bind, bind, Except.bind, ih hdata]
      cases Region.readAdaptivePixels count data <;> rfl

theorem dropRowCount_append {region : Region} {rows : Nat} {data : Bytes} (hrows : rows < 256 ^ 4)
    (hle : rows ≤ region.info.height) (hdata : region.data = data ++ Bytes.ofNatBE 4 rows) :
    region.dropRowCount = .ok { region with info := { region.info with height := rows }, data } := by
  have hlen : region.data.length = data.length + 4 := by
    rw [hdata, List.length_append, Bytes.length_ofNatBE]
  have hsplit : region.data.splitAt (region.data.length - 4) = (data, Bytes.ofNatBE 4 rows) := by
    rw [hlen, Nat.add_sub_cancel, hdata, List.splitAt_eq, List.take_left, List.drop_left]
  unfold Region.dropRowCount
  rw [if_neg (by omega), hsplit]
  simp only [Bytes.toNatBE_ofNatBE hrows, if_neg (Nat.not_lt.mpr hle)]

theorem parse_openSegment (h : r.Valid) :
    Region.parse r.openSegment.data true = Region.parse r.statedSegment.data false := by
  have hrows : r.rows < 256 ^ 4 := h.rows_le.trans_lt h.height_lt
  have hsize : r.width * r.rows ≤ maxPixels := (Nat.mul_le_mul_left _ h.rows_le).trans h.size_le
  have hpixels : 2 * adaptiveCount (r.flags / 2 % 4) ≤ r.body.length := by
    have hle := h.pixels_le
    rw [body, List.length_append]
    omega
  have hcount : (if (r.flags % 2 == 1) = true then 0 else if r.flags / 2 % 4 = 0 then 4 else 1) =
      adaptiveCount (r.flags / 2 % 4) := by
    rw [h.arithmetic]
    rfl
  unfold Region.parse openSegment statedSegment
  simp only [bind, Except.bind, readInfo_start h h.height_lt h.size_le, readInfo_start h hrows hsize]
  cases Combination.ofNat? (r.combination % 8) with
  | none => rfl
  | some combination =>
    simp only [@Reader.number_append 1 _ h.flags_lt, hcount]
    split
    · rfl
    · simp only [readAdaptivePixels_append_rest hpixels]
      cases Region.readAdaptivePixels (adaptiveCount (r.flags / 2 % 4)) r.body with
      | error e => rfl
      | ok p => exact dropRowCount_append hrows h.rows_le rfl

/-- Whether an image with the region is the same with its length left open and with its length stated,
in either of the two streams of a document. The segments before it are read as they were written; any data
follow. -/
def LengthImmaterial (r : OpenRegion) : Prop :=
  ∀ (before : List DelimitedSegment) (openHeader statedHeader after : Bytes),
    HeaderCode r.openSegment.header openHeader → HeaderCode r.statedSegment.header statedHeader →
      let opened := before.flatMap DelimitedSegment.code ++ (openHeader ++ r.openSegment.data ++ after)
      let stated :=
        before.flatMap DelimitedSegment.code ++ (statedHeader ++ r.statedSegment.data ++ after)
      (∀ globals, decodeEmbedded opened globals = decodeEmbedded stated globals) ∧
        ∀ data, decodeEmbedded data (some opened) = decodeEmbedded data (some stated)

theorem bind_eq_of_map_eq {ε α β : Type} {x y : Except ε α} {f : α → Except ε β}
    (h : x.map f = y.map f) : x >>= f = y >>= f := by
  cases x <;> cases y <;> simp_all [Except.map, bind, Except.bind]

theorem lengthImmaterial_of_markedAtEnd (h : r.Valid) (hmarked : MarkedAtEnd r.body) :
    r.LengthImmaterial := by
  intro before openHeader statedHeader after hopen hstated opened stated
  let openDelimited : DelimitedSegment :=
    ⟨r.openSegment, openHeader, hopen, fun rest => (read_openSegment_iff h rest).mpr hmarked⟩
  let statedDelimited : DelimitedSegment :=
    ⟨r.statedSegment, statedHeader, hstated, fun rest => Segment.read_eq_ok.mpr ⟨rfl, rfl, rfl⟩⟩
  have hopenKind : openDelimited.segment.header.kind ≠ .endOfFile := by
    rw [show openDelimited.segment.header.kind = _ from h.kind_eq]
    simp
  have hstatedKind : statedDelimited.segment.header.kind ≠ .endOfFile := by
    rw [show statedDelimited.segment.header.kind = _ from h.kind_eq]
    simp
  have hsegments : ∀ (F : List Segment → Except Error Bitmap),
      (∀ first rest, F (first ++ r.openSegment :: rest) = F (first ++ r.statedSegment :: rest)) →
      (sequentialSegments opened >>= F) = sequentialSegments stated >>= F := by
    intro F hF
    refine bind_eq_of_map_eq (DelimitedSegment.sequentialSegments_congr before F fun first => ?_)
    change (sequentialSegments (openDelimited.code ++ after)).map _ =
      (sequentialSegments (statedDelimited.code ++ after)).map _
    rw [DelimitedSegment.sequentialSegments_append, DelimitedSegment.sequentialSegments_append,
      if_neg hopenKind, if_neg hstatedKind]
    cases sequentialSegments after with
    | error e => rfl
    | ok rest => exact congrArg Except.ok (hF first rest)
  have hdecode := @decodeSegments_congr r.openSegment r.statedSegment h.kind_eq h.kind_eq
    (parse_openSegment h)
  constructor
  · intro globals
    rw [decodeEmbedded_eq, decodeEmbedded_eq]
    refine bind_congr fun first => hsegments _ fun segments rest => ?_
    rw [← List.append_assoc, hdecode, List.append_assoc]
  · intro data
    rw [decodeEmbedded_eq, decodeEmbedded_eq]
    refine hsegments _ fun first rest => bind_congr fun segments => ?_
    rw [List.append_assoc, List.cons_append, hdecode, List.append_assoc, List.cons_append]

/-- The end of a region of unknown length is found if and only if its adaptive and its coded pixels
together hold the marker at their end only. Its length then does not matter for the image. -/
theorem decodeEmbedded_openSegment (h : r.Valid) :
    (∀ rest, Segment.read r.openSegment.header (r.openSegment.data ++ rest) = .ok (r.openSegment, rest) ↔
      MarkedAtEnd r.body) ∧ (MarkedAtEnd r.body → r.LengthImmaterial) :=
  ⟨read_openSegment_iff h, lengthImmaterial_of_markedAtEnd h⟩

/-! ## Two rows in the second template -/

/-- A page of four columns and two rows. -/
def barsPage : DelimitedSegment where
  segment := ⟨⟨0, .pageInformation, [], 1, some 19⟩,
    [0, 0, 0, 4, 0, 0, 0, 2, 0, 0, 0, 0, 0, 0, 0, 0, 0, 0, 0]⟩
  header := [0, 0, 0, 0, 48, 0, 1, 0, 0, 0, 19]
  header_code := @HeaderCode.mk ⟨0, .pageInformation, [], 1, some 19⟩ 48 _ _ _ (by decide) (by decide)
    rfl (@CountCode.short 0 0 (by decide) (by decide)) .nil (by decide) (.known (by decide))
  read_append rest := Segment.read_eq_ok.mpr ⟨rfl, rfl, rfl⟩

/-- The rows `1011` and `0110`, with an adaptive pixel that is white wherever it is. -/
def bars (pixel : Bytes) : OpenRegion :=
  ⟨⟨1, .genericRegion true, [], 1, none⟩, 4, 2, 0, 0, 0, 2, pixel, [0xB2, 0x7F, 0xFF, 0xAC], 2⟩

theorem valid_bars {pixel : Bytes} (h : pixel.length = 2) : (bars pixel).Valid := by
  have hcoded : MarkedAtEnd [0xB2, 0x7F, 0xFF, 0xAC] := by
    let r : Region := ⟨⟨4, 2, 0, 0, .or⟩, false, 1, false, [(3, -1)], []⟩
    let b : Bitmap := ⟨4, 2, #[true, false, true, true, false, true, true, false], false⟩
    have hencode : r.encode 0 (fun _ => false) b = [0xB2, 0x7F, 0xFF, 0xAC] := by decide +kernel
    exact hencode ▸ r.markedAtEnd_encode 0 _ b
  refine ⟨rfl, ?_, ?_, ?_, ?_, ?_, ?_, ?_, ?_, ?_, ?_, hcoded⟩ <;>
    simp [bars, h, adaptiveCount, maxPixels]

theorem headerCode_openBars (pixel : Bytes) : HeaderCode (bars pixel).openSegment.header
    [0, 0, 0, 1, 38, 0, 1, 0xFF, 0xFF, 0xFF, 0xFF] :=
  @HeaderCode.mk ⟨1, .genericRegion true, [], 1, none⟩ 38 _ _ _ (by decide) (by decide) rfl
    (@CountCode.short 0 0 (by decide) (by decide)) .nil (by decide) .unknown

theorem headerCode_statedBars {pixel : Bytes} (h : pixel.length = 2) :
    HeaderCode (bars pixel).statedSegment.header [0, 0, 0, 1, 38, 0, 1, 0, 0, 0, 24] := by
  have hlength : ((bars pixel).start (bars pixel).rows ++ (bars pixel).body).length = 24 := by
    simp [bars, body, h]
  rw [statedSegment, hlength]
  exact @HeaderCode.mk ⟨1, .genericRegion true, [], 1, some 24⟩ 38 _ _ _ (by decide) (by decide) rfl
    (@CountCode.short 0 0 (by decide) (by decide)) .nil (by decide) (.known (by decide))

/-- With the adaptive pixel of the standard the end is found. -/
theorem decodeEmbedded_openSegment_bars :
    (bars [3, 0xFF]).Valid ∧ MarkedAtEnd (bars [3, 0xFF]).body ∧
      decodeEmbedded (barsPage.code ++ ([0, 0, 0, 1, 38, 0, 1, 0xFF, 0xFF, 0xFF, 0xFF] ++
        (bars [3, 0xFF]).openSegment.data)) none =
      decodeEmbedded (barsPage.code ++ ([0, 0, 0, 1, 38, 0, 1, 0, 0, 0, 24] ++
        (bars [3, 0xFF]).statedSegment.data)) none := by
  have hvalid : (bars [3, 0xFF]).Valid := valid_bars rfl
  have hmarked : MarkedAtEnd (bars [3, 0xFF]).body :=
    (@markerPosition?_append _ [0, 0, 0, 0] 0 (suffix_body hvalid) (by decide)).mp (by decide)
  refine ⟨hvalid, hmarked, ?_⟩
  have hsame := (decodeEmbedded_openSegment hvalid).2 hmarked [barsPage] _ _ []
    (headerCode_openBars _) (headerCode_statedBars rfl)
  simpa using hsame.1 none

/-- With an adaptive pixel one column to the left and 84 rows up, whose bytes are the marker, the region
ends too early. -/
theorem not_forall_lengthImmaterial : ¬ ∀ r : OpenRegion, r.Valid → r.LengthImmaterial := by
  intro h
  have hsame := h (bars [0xFF, 0xAC]) (valid_bars rfl) [barsPage] _ _ [] (headerCode_openBars _)
    (headerCode_statedBars rfl)
  have hfound : (decodeEmbedded (barsPage.code ++ ([0, 0, 0, 1, 38, 0, 1, 0xFF, 0xFF, 0xFF, 0xFF] ++
      (bars [0xFF, 0xAC]).openSegment.data)) none).isOk = false := by decide +kernel
  have hstated : (decodeEmbedded (barsPage.code ++ ([0, 0, 0, 1, 38, 0, 1, 0, 0, 0, 24] ++
      (bars [0xFF, 0xAC]).statedSegment.data)) none).isOk = true := by decide +kernel
  have hnone := hsame.1 none
  simp only [List.flatMap_cons, List.flatMap_nil, List.append_nil] at hnone
  rw [hnone, hstated] at hfound
  exact absurd hfound (by decide)

end OpenRegion

end Folio.Bilevel
