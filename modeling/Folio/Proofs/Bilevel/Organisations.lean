import Folio.Bilevel.Decode
import Folio.Proofs.Bilevel.SegmentFormat

/-!
# Organisations of bilevel data

The same segments can be kept in a file, with the data of each right after its header or after all
headers, or in two streams of a document, of which the first one holds the first few of them.

Main statement: the image does not depend on how its segments are kept, and neither does the error.
-/

namespace Folio.Bilevel

/-- A segment of known length with the bytes of its header. -/
structure EncodedSegment where
  segment : Segment
  header : Bytes
  header_code : HeaderCode segment.header header
  length_eq : segment.header.length = some segment.data.length

/-- What a file begins with. The number of pages may be left out. -/
inductive FileCode (sequential : Bool) : Bytes → Prop
  | mk {flags : Nat} {pages : Bytes} :
    flags < 256 → (flags % 2 == 1) = sequential →
    pages.length = (if flags / 2 % 2 = 0 then 4 else 0) →
    FileCode sequential (fileMark ++ (Bytes.ofNatBE 1 flags ++ pages))

namespace EncodedSegment

/-- What a segment contributes to the page. -/
def kind (e : EncodedSegment) : SegmentKind := e.segment.header.kind

/-- The data in which each header is followed by the data of its segment. -/
def sequential (segments : List EncodedSegment) : Bytes :=
  segments.flatMap fun e => e.header ++ e.segment.data

/-- All headers. -/
def headers (segments : List EncodedSegment) : Bytes := segments.flatMap header

/-- The data of all segments. -/
def bodies (segments : List EncodedSegment) : Bytes := segments.flatMap fun e => e.segment.data

variable {e : EncodedSegment} {segments : List EncodedSegment}

theorem readHeader_append (e : EncodedSegment) (rest : Bytes) :
    SegmentHeader.read (e.header ++ rest) = .ok (e.segment.header, rest) :=
  SegmentHeader.read_eq_ok.mpr ⟨_, e.header_code, rfl⟩

theorem read_append (e : EncodedSegment) (rest : Bytes) :
    Segment.read e.segment.header (e.segment.data ++ rest) = .ok (e.segment, rest) := by
  unfold Segment.read
  rw [e.length_eq]
  simp only [Reader.bind_eq_ok, Reader.pure_eq_ok, Reader.bytes_eq_ok]
  exact ⟨_, _, ⟨rfl, rfl⟩, _, _, ⟨rfl, rfl⟩, rfl, rfl⟩

/-- No segment comes after the end of the file. -/
def Ordered (segments : List EncodedSegment) : Prop :=
  segments.Pairwise fun e _ => e.kind ≠ .endOfFile

theorem Ordered.eq_nil (h : Ordered (e :: segments)) (hkind : e.kind = .endOfFile) :
    segments = [] := by
  refine List.eq_nil_iff_forall_not_mem.mpr fun later hlater => ?_
  exact (List.pairwise_cons.mp h).1 later hlater hkind

theorem ordered_append_singleton {last : EncodedSegment}
    (h : ∀ e ∈ segments, e.kind ≠ .endOfFile) : Ordered (segments ++ [last]) := by
  refine List.pairwise_append.mpr ⟨?_, List.pairwise_singleton _ _, fun e he _ _ => h e he⟩
  exact List.pairwise_of_forall_mem_list fun e he _ _ => h e he

/-! ## Sequential data -/

theorem readSegments_sequential (h : Ordered segments) {fuel : Nat} (hfuel : segments.length < fuel) :
    readSegments fuel (sequential segments) = .ok (segments.map segment) := by
  induction segments generalizing fuel with
  | nil =>
    obtain ⟨fuel, rfl⟩ : ∃ k, fuel = k + 1 := ⟨fuel - 1, by omega⟩
    rfl
  | cons e segments ih =>
    obtain ⟨fuel, rfl⟩ : ∃ k, fuel = k + 1 := ⟨fuel - 1, by omega⟩
    have hdata : sequential (e :: segments) =
        e.header ++ (e.segment.data ++ sequential segments) := by
      rw [sequential, List.flatMap_cons, List.append_assoc]
      rfl
    have hmore : (sequential (e :: segments)).isEmpty = false := by
      rw [List.isEmpty_eq_false_iff, ← List.length_pos_iff, hdata, List.length_append]
      exact Nat.add_pos_left e.header_code.length_pos _
    rw [readSegments, hmore, hdata, readHeader_append]
    simp only [bind, Except.bind, read_append]
    by_cases hkind : e.kind = .endOfFile
    · -- reading stops here, and there was nothing more to read
      rw [h.eq_nil hkind]
      exact if_pos hkind
    · rw [List.length_cons] at hfuel
      rw [ih (List.pairwise_cons.mp h).2 (by omega)]
      exact if_neg hkind

/-- Segments have at least as many bytes as there are of them, and so one unit of fuel for each byte is
enough. -/
theorem length_le_flatMap {code : EncodedSegment → Bytes} (hcode : ∀ e, 0 < (code e).length)
    (segments : List EncodedSegment) : segments.length ≤ (segments.flatMap code).length := by
  induction segments with
  | nil => exact Nat.zero_le _
  | cons e segments ih =>
    have hpos := hcode e
    rw [List.flatMap_cons, List.length_append, List.length_cons]
    omega

theorem sequentialSegments_eq (h : Ordered segments) :
    sequentialSegments (sequential segments) = .ok (segments.map segment) := by
  have hpos : ∀ e : EncodedSegment, 0 < (e.header ++ e.segment.data).length := fun e => by
    rw [List.length_append]
    exact Nat.add_pos_left e.header_code.length_pos _
  exact readSegments_sequential h (Nat.lt_succ_of_le (length_le_flatMap hpos segments))

/-! ## All headers first -/

/-- A header is the last one if the file ends with it or no data follow. -/
theorem readHeaders_succ (e : EncodedSegment) (fuel : Nat) (rest : Bytes) :
    readHeaders (fuel + 1) (e.header ++ rest) =
      if e.kind = .endOfFile ∨ rest.isEmpty then .ok ([e.segment.header], rest)
      else (readHeaders fuel rest).map fun p => (e.segment.header :: p.1, p.2) := by
  have hknown : ¬ e.segment.header.length.isNone = true := by
    rw [e.length_eq]
    exact Bool.false_ne_true
  rw [readHeaders, readHeader_append]
  simp only [bind, Except.bind, if_neg hknown]
  rfl

theorem readHeaders_append {last : EncodedSegment} (hlast : last.kind = .endOfFile)
    (h : ∀ e ∈ segments, e.kind ≠ .endOfFile) (data : Bytes) {fuel : Nat}
    (hfuel : segments.length < fuel) :
    readHeaders fuel (headers (segments ++ [last]) ++ data) =
      .ok ((segments ++ [last]).map fun e => e.segment.header, data) := by
  induction segments generalizing fuel with
  | nil =>
    obtain ⟨fuel, rfl⟩ : ∃ k, fuel = k + 1 := ⟨fuel - 1, by omega⟩
    have hdata : headers ([] ++ [last]) = last.header := List.append_nil _
    rw [hdata, readHeaders_succ, if_pos (Or.inl hlast)]
    rfl
  | cons e segments ih =>
    obtain ⟨fuel, rfl⟩ : ∃ k, fuel = k + 1 := ⟨fuel - 1, by omega⟩
    obtain ⟨hfirst, hrest⟩ := List.forall_mem_cons.mp h
    have hdata : headers (e :: segments ++ [last]) ++ data =
        e.header ++ (headers (segments ++ [last]) ++ data) := by
      rw [headers, List.cons_append, List.flatMap_cons, List.append_assoc]
      rfl
    -- the last header is still to come, so this one does not end the headers
    have hmore : ¬ (headers (segments ++ [last]) ++ data).isEmpty = true := by
      have hpos := last.header_code.length_pos
      rw [List.isEmpty_iff_length_eq_zero, headers, List.flatMap_append, List.flatMap_singleton,
        List.length_append, List.length_append]
      omega
    rw [List.length_cons] at hfuel
    rw [hdata, readHeaders_succ, if_neg (not_or.mpr ⟨hfirst, hmore⟩), ih hrest (by omega)]
    rfl

theorem readBodies_eq :
    readBodies (segments.map fun e => e.segment.header) (bodies segments) =
      .ok (segments.map segment) := by
  induction segments with
  | nil => rfl
  | cons e segments ih =>
    rw [bodies] at ih
    rw [bodies, List.flatMap_cons, List.map_cons, readBodies, read_append]
    simp only [bind, Except.bind, ih]
    rfl

theorem randomAccessSegments_eq {last : EncodedSegment} (hlast : last.kind = .endOfFile)
    (h : ∀ e ∈ segments, e.kind ≠ .endOfFile) :
    randomAccessSegments (headers (segments ++ [last]) ++ bodies (segments ++ [last])) =
      .ok ((segments ++ [last]).map segment) := by
  have hlength : (segments ++ [last]).length ≤ (headers (segments ++ [last])).length :=
    length_le_flatMap (fun e => e.header_code.length_pos) _
  rw [List.length_append, List.length_singleton] at hlength
  rw [randomAccessSegments, readHeaders_append hlast h]
  · exact readBodies_eq
  · rw [List.length_append]
    omega

end EncodedSegment

theorem FileCode.fileSegments_append {isSequential : Bool} {code : Bytes}
    (h : FileCode isSequential code) (data : Bytes) :
    fileSegments (code ++ data) =
      if isSequential then sequentialSegments data else randomAccessSegments data := by
  cases h with
  | @mk flags pages hflags hsequential hpages =>
    have hmark : Reader.bytes 8 (fileMark ++ (Bytes.ofNatBE 1 flags ++ (pages ++ data))) =
        .ok (fileMark, Bytes.ofNatBE 1 flags ++ (pages ++ data)) :=
      Reader.bytes_eq_ok.mpr ⟨rfl, rfl⟩
    have hread : Reader.number 1 (Bytes.ofNatBE 1 flags ++ (pages ++ data)) =
        .ok (flags, pages ++ data) :=
      Reader.number_append hflags _
    have htaken : Reader.bytes (if flags / 2 % 2 = 0 then 4 else 0) (pages ++ data) =
        .ok (pages, data) :=
      Reader.bytes_eq_ok.mpr ⟨hpages, rfl⟩
    rw [List.append_assoc, List.append_assoc, fileSegments, hmark]
    simp only [bind, Except.bind, ne_eq, not_true_eq_false, if_false, hread, htaken]
    by_cases hbit : flags % 2 = 1
    · rw [if_pos hbit, ← hsequential, hbit]
      rfl
    · rw [if_neg hbit, ← hsequential, beq_eq_false_iff_ne.mpr hbit]
      rfl

open EncodedSegment

/-- A file in either organisation and two streams of a document hold the same image, or the same error,
if their segments are the same. -/
theorem decodeFile_eq_decodeEmbedded {segments : List EncodedSegment} {last : EncodedSegment}
    (hlast : last.kind = .endOfFile) (h : ∀ e ∈ segments, e.kind ≠ .endOfFile)
    {first second : Bytes} (hfirst : FileCode true first) (hsecond : FileCode false second) (i : Nat) :
    let all := segments ++ [last]
    let result := decodeSegments (all.map segment)
    decodeFile (first ++ sequential all) = result ∧
      decodeFile (second ++ (headers all ++ bodies all)) = result ∧
      decodeEmbedded (sequential (all.drop i)) (some (sequential (all.take i))) = result := by
  intro all result
  have hordered : Ordered all := ordered_append_singleton h
  refine ⟨?_, ?_, ?_⟩
  · rw [decodeFile, hfirst.fileSegments_append, if_pos rfl, sequentialSegments_eq hordered]
    rfl
  · rw [decodeFile, hsecond.fileSegments_append, if_neg Bool.false_ne_true,
      randomAccessSegments_eq hlast h]
    rfl
  · have htake : Ordered (all.take i) := hordered.sublist (List.take_sublist i all)
    have hdrop : Ordered (all.drop i) := hordered.sublist (List.drop_sublist i all)
    rw [decodeEmbedded, sequentialSegments_eq htake, sequentialSegments_eq hdrop]
    change decodeSegments ((all.take i).map segment ++ (all.drop i).map segment) = result
    rw [← List.map_append, List.take_append_drop]

/-- A black page of one pixel and the end of the file, which is the second one of two streams. -/
theorem decodeFile_eq_decodeEmbedded_dot :
    let page : Bytes := [0, 0, 0, 1, 0, 0, 0, 1, 0, 0, 0, 0, 0, 0, 0, 0, 4, 0, 0]
    let pageHeader : Bytes := [0, 0, 0, 0, 48, 0, 1, 0, 0, 0, 19]
    let endHeader : Bytes := [0, 0, 0, 1, 51, 0, 0, 0, 0, 0, 0]
    let dot : Bitmap := ⟨1, 1, #[true], true⟩
    decodeFile (fileMark ++ [1, 0, 0, 0, 1] ++ (pageHeader ++ page ++ endHeader)) = .ok dot ∧
      decodeFile (fileMark ++ [2] ++ (pageHeader ++ endHeader ++ page)) = .ok dot ∧
      decodeEmbedded endHeader (some (pageHeader ++ page)) = .ok dot := by
  intro page pageHeader endHeader dot
  have hcount := @CountCode.short 0 0 (by decide) (by decide)
  have hpage : HeaderCode ⟨0, .pageInformation, [], 1, some 19⟩ pageHeader := by
    exact @HeaderCode.mk ⟨0, .pageInformation, [], 1, some 19⟩ 48 _ _ _ (by decide) (by decide) rfl
      hcount .nil (by decide) (.known (by decide))
  have hend : HeaderCode ⟨1, .endOfFile, [], 0, some 0⟩ endHeader := by
    exact @HeaderCode.mk ⟨1, .endOfFile, [], 0, some 0⟩ 51 _ _ _ (by decide) (by decide) rfl hcount
      .nil (by decide) (.known (by decide))
  have hfirst : FileCode true (fileMark ++ [1, 0, 0, 0, 1]) :=
    @FileCode.mk _ 1 [0, 0, 0, 1] (by decide) rfl rfl
  have hsecond : FileCode false (fileMark ++ [2]) := @FileCode.mk _ 2 [] (by decide) rfl rfl
  let first : EncodedSegment := ⟨⟨_, page⟩, _, hpage, rfl⟩
  let last : EncodedSegment := ⟨⟨_, []⟩, _, hend, rfl⟩
  have hkind : ∀ e ∈ [first], e.kind ≠ .endOfFile :=
    List.forall_mem_singleton.mpr fun h => SegmentKind.noConfusion h
  have hresult : decodeSegments ([first, last].map segment) = .ok dot := by cbv
  rw [← hresult]
  exact @decodeFile_eq_decodeEmbedded [first] last rfl hkind _ _ hfirst hsecond 1

end Folio.Bilevel
