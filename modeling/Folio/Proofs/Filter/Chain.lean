import Folio.Proofs.Filter.Ascii
import Folio.Proofs.Filter.RunLength
import Folio.Store.Stream

/-!
# Streams with several filters

`EncodedBy filters data text` says that `text` is data encoded by the last filter first. Main statement:
`decoded_encodedBy`, a stream that is not encrypted is decoded to the data from each such text.
-/

namespace Folio

namespace Filter

variable {f : Filter} {filters : List Filter} {data text : Bytes} {n : Name}

/-- The name and the abbreviation of a filter that is written here. -/
def spellings : Filter → List Name
  | asciiHex => ["ASCIIHexDecode", "AHx"]
  | ascii85 => ["ASCII85Decode", "A85"]
  | runLength => ["RunLengthDecode", "RL"]
  | _ => []

theorem ofName?_of_mem_spellings (h : n ∈ f.spellings) : ofName? n = some f := by
  cases f <;> simp only [spellings, List.mem_cons, List.not_mem_nil, or_false] at h <;>
    rcases h with rfl | rfl <;> decide

/-- The encodings of some data by one filter, with anything after the mark of the end. -/
inductive Encodes : Filter → Bytes → Bytes → Prop
  | asciiHex {data digits body : Bytes} (after : Bytes) :
    AsciiHex.Digits data digits → Interspersed digits body → Encodes asciiHex data (body ++ 62 :: after)
  | ascii85 {data symbols body : Bytes} (after : Bytes) :
    Ascii85.Symbols data symbols → Interspersed (symbols ++ [126, 62]) body →
      Encodes ascii85 data (body ++ after)
  | runLength {data text : Bytes} (after : Bytes) :
    RunLength.Runs data text → Encodes runLength data (text ++ after)

theorem Encodes.decode?_eq (h : Encodes f data text) (params : Option Dict) :
    f.decode? text params = some data := by
  cases h with
  | asciiHex after hdigits hbody => exact AsciiHex.decode?_append hdigits hbody after
  | ascii85 after hsymbols hbody => exact Ascii85.decode?_append hsymbols hbody after
  | runLength after hruns => exact congrArg some (RunLength.decode_append hruns after)

theorem Encodes.isForImages_eq (h : Encodes f data text) : f.isForImages = false := by
  cases h <;> rfl

theorem exists_encodes (h : f.spellings ≠ []) (data : Bytes) : ∃ text, Encodes f data text := by
  cases f with
  | asciiHex =>
    have hdigits := AsciiHex.digits_toHex data
    exact ⟨_, .asciiHex [] hdigits (interspersed_self fun b hb => hdigits.not_isWhiteSpace hb)⟩
  | ascii85 =>
    obtain ⟨symbols, hsymbols⟩ := Ascii85.exists_symbols data
    refine ⟨_, .ascii85 [] hsymbols (interspersed_self fun b hb => ?_)⟩
    rcases List.mem_append.mp hb with hb | hb
    · exact (hsymbols.mem hb).2
    · exact (by decide +kernel : ∀ b ∈ ([126, 62] : Bytes), Syntax.isWhiteSpace b = false) b hb
  | runLength =>
    obtain ⟨text, hruns⟩ := RunLength.exists_runs data
    exact ⟨_, .runLength [] hruns⟩
  | _ => exact absurd rfl h

/-- The encodings of some data by several filters, by the last one first. -/
inductive EncodedBy : List Filter → Bytes → Bytes → Prop
  | nil {data : Bytes} : EncodedBy [] data data
  | cons {f : Filter} {filters : List Filter} {data between text : Bytes} :
    EncodedBy filters data between → Encodes f between text → EncodedBy (f :: filters) data text

theorem exists_encodedBy (h : ∀ f ∈ filters, f.spellings ≠ []) (data : Bytes) :
    ∃ text, EncodedBy filters data text := by
  induction filters with
  | nil => exact ⟨data, .nil⟩
  | cons f filters ih =>
    obtain ⟨hf, hfilters⟩ := List.forall_mem_cons.mp h
    obtain ⟨between, hbetween⟩ := ih hfilters
    obtain ⟨text, htext⟩ := exists_encodes hf between
    exact ⟨text, .cons hbetween htext⟩

end Filter

namespace Stream

open Folio.Filter (EncodedBy exists_encodedBy ofName?_of_mem_spellings)

variable {d : Dict} {store : Store} {filters : List Filter} {data text : Bytes}
variable {reference : Option Ref} {names : List Name}

/-- Whether a stream's dictionary says that the data has some filters: it has no entry for them, the name of
the only one, or an array of names. Names and the array may be references to such objects. -/
inductive Declares (store : Store) (d : Dict) : List Filter → Prop
  | absent : d.get? "Filter" = none → Declares store d []
  | name {entry : Object} {n : Name} {f : Filter} : d.get? "Filter" = some entry →
      store.resolve? entry = some (.name n) → n ∈ f.spellings → Declares store d [f]
  | array {entry : Object} {items : List Object} {filters : List Filter} :
    d.get? "Filter" = some entry → store.resolve? entry = some (.array items) →
      List.Forall₂ (fun item f => ∃ n ∈ f.spellings, store.resolve? item = some (.name n)) items filters →
      Declares store d filters

theorem Declares.spellings_ne_nil (h : Declares store d filters) : ∀ f ∈ filters, f.spellings ≠ [] := by
  cases h with
  | absent _ => simp
  | name _ _ hn => simpa using List.ne_nil_of_mem hn
  | array _ hresolve hitems =>
    clear hresolve
    induction hitems with
    | nil => simp
    | cons hitem _ ih =>
      obtain ⟨n, hn, -⟩ := hitem
      exact List.forall_mem_cons.mpr ⟨List.ne_nil_of_mem hn, ih⟩

theorem filterMap_resolveAs? {items : List Object}
    (h : List.Forall₂ (fun item f => ∃ n ∈ f.spellings, store.resolve? item = some (.name n))
      items filters) :
    List.Forall₂ (fun n f => n ∈ f.spellings) (items.filterMap (store.resolveAs? Object.name?)) filters := by
  induction h with
  | nil => exact .nil
  | @cons item f items filters hitem _ ih =>
    obtain ⟨n, hn, hresolve⟩ := hitem
    have hname : store.resolveAs? Object.name? item = some n := by
      rw [Store.resolveAs?, hresolve]
      rfl
    rw [List.filterMap_cons_some hname]
    exact .cons hn ih

theorem Declares.filterNames_eq (h : Declares store d filters) :
    ∃ names, filterNames ⟨d, text, reference⟩ store = .ok names ∧
      List.Forall₂ (fun n f => n ∈ f.spellings) names filters := by
  cases h with
  | absent hget => exact ⟨[], by simp only [filterNames, hget], .nil⟩
  | name hget hresolve hn => exact ⟨_, by simp only [filterNames, hget, hresolve], .cons hn .nil⟩
  | array hget hresolve hitems =>
    exact ⟨_, by simp only [filterNames, hget, hresolve], filterMap_resolveAs? hitems⟩

theorem mapM_ofName? (params : Nat → Option Dict)
    (h : List.Forall₂ (fun n f => n ∈ f.spellings) names filters) (start : Nat) :
    ∃ steps, (names.zipIdx start).mapM (fun p => match Filter.ofName? p.1 with
      | some f => Except.ok (f, params p.2)
      | none => Except.error Error.unknownFilter) = .ok steps ∧ steps.map Prod.fst = filters := by
  induction h generalizing start with
  | nil => exact ⟨[], rfl, rfl⟩
  | @cons n f names filters hn _ ih =>
    obtain ⟨steps, hsteps, hfilters⟩ := ih (start + 1)
    refine ⟨(f, params start) :: steps, ?_, by simp [hfilters]⟩
    rw [List.zipIdx_cons, List.mapM_cons, hsteps, ofName?_of_mem_spellings hn]
    rfl

theorem Declares.filters_eq (h : Declares store d filters) :
    ∃ steps, Stream.filters ⟨d, text, reference⟩ store = .ok steps ∧ steps.map Prod.fst = filters := by
  obtain ⟨names, hnames, hspellings⟩ := h.filterNames_eq
  obtain ⟨steps, hsteps, hfilters⟩ := mapM_ofName? (filterParams ⟨d, text, reference⟩ store) hspellings 0
  refine ⟨steps, ?_, hfilters⟩
  rw [Stream.filters, hnames]
  exact hsteps

theorem applyFilters_encodedBy (h : EncodedBy filters data text) {steps : List FilterStep}
    (hsteps : steps.map Prod.fst = filters) : applyFilters steps text = .ok ⟨data, none⟩ := by
  induction h generalizing steps with
  | nil =>
    rw [List.map_eq_nil_iff] at hsteps
    rw [hsteps, applyFilters]
  | cons _ hencodes ih =>
    obtain ⟨⟨f, params⟩, rest, rfl, rfl, hrest⟩ := List.map_eq_cons_iff.mp hsteps
    rw [applyFilters, hencodes.isForImages_eq, hencodes.decode?_eq params]
    exact ih hrest

theorem decrypted_eq (h : store.security = none ∨ reference = none) :
    decrypted ⟨d, text, reference⟩ store = .ok text := by
  rcases h with h | rfl
  · rw [decrypted, h]
  · rw [decrypted]
    cases store.security <;> rfl

/-- Data has an encoding by every list of filters, and each of its encodings is decoded to it. -/
theorem decoded_encodedBy (hfilters : Declares store d filters)
    (hplain : store.security = none ∨ reference = none) (data : Bytes) :
    (∃ text, EncodedBy filters data text) ∧
      ∀ text, EncodedBy filters data text → decoded ⟨d, text, reference⟩ store = .ok data := by
  refine ⟨exists_encodedBy hfilters.spellings_ne_nil data, fun text htext => ?_⟩
  obtain ⟨steps, hsteps, hnames⟩ := hfilters.filters_eq
  rw [decoded, decode, decrypted_eq hplain, hsteps]
  simp only [bind, Except.bind, applyFilters_encodedBy htext hnames]

/-- A dictionary with three filters, the first of which is a reference. -/
def chainedDict : Dict := ⟨[("Filter", .array [.ref ⟨5, 0⟩, .name "A85", .name "RunLengthDecode"])]⟩

/-- A document with the name of the first filter. -/
def chainedStore : Store := { objects := [(⟨5, 0⟩, .name "AHx")] }

/-- Eight zeros as one run, its symbols with white space between them, and their digits. -/
def chainedText : Bytes := .ofAscii "23 36346028\n7a20212E 597E3e>7B"

theorem declares_chainedDict : Declares chainedStore chainedDict [.asciiHex, .ascii85, .runLength] := by
  refine .array rfl rfl (.cons ⟨"AHx", ?_, rfl⟩ (.cons ⟨"A85", ?_, rfl⟩ (.cons ⟨"RunLengthDecode", ?_, rfl⟩
    .nil)))
  · exact List.mem_cons_of_mem _ List.mem_cons_self
  · exact List.mem_cons_of_mem _ List.mem_cons_self
  · exact List.mem_cons_self

theorem encodedBy_chainedText :
    EncodedBy [.asciiHex, .ascii85, .runLength] (List.replicate 8 0) chainedText := by
  have hcons : ∀ {high low h l b : UInt8} {data digits : Bytes}, Bytes.hexValue? high = some h →
      Bytes.hexValue? low = some l → h * 16 + l = b → Filter.AsciiHex.Digits data digits →
      Filter.AsciiHex.Digits (b :: data) (high :: low :: digits) := by
    rintro high low h l _ data digits hhigh hlow rfl hdigits
    exact .cons hhigh hlow hdigits
  have hruns : Filter.RunLength.Runs (List.replicate 8 0) [7, 0, 0, 0, 0, 0, 0, 0, 0, 128] :=
    @Filter.RunLength.Runs.literal (List.replicate 8 0) [] _ (List.cons_ne_nil _ _) (by decide) .stop
  have hsymbols : Filter.Ascii85.Symbols [7, 0, 0, 0, 0, 0, 0, 0, 0, 128]
      [35, 54, 52, 96, 40, 122, 33, 46, 89] :=
    @Filter.Ascii85.Symbols.word [7, 0, 0, 0] _ _ rfl
      (.zeros (@Filter.Ascii85.Symbols.last [0, 128] (List.cons_ne_nil _ _) (by decide)))
  have hdigits : Filter.AsciiHex.Digits [35, 54, 52, 96, 40, 122, 32, 33, 46, 89, 126, 62]
      (.ofAscii "23363460287a20212E597E3e") :=
    hcons rfl rfl rfl (hcons rfl rfl rfl (hcons rfl rfl rfl (hcons rfl rfl rfl (hcons rfl rfl rfl
      (hcons rfl rfl rfl (hcons rfl rfl rfl (hcons rfl rfl rfl (hcons rfl rfl rfl (hcons rfl rfl rfl
      (hcons rfl rfl rfl (hcons rfl rfl rfl .nil)))))))))))
  have hblank : Filter.Interspersed [35, 54, 52, 96, 40, 122, 33, 46, 89, 126, 62]
      [35, 54, 52, 96, 40, 122, 32, 33, 46, 89, 126, 62] := rfl
  have hspaced : Filter.Interspersed (.ofAscii "23363460287a20212E597E3e")
      (.ofAscii "23 36346028\n7a20212E 597E3e") := rfl
  exact .cons (.cons (.cons .nil (.runLength [] hruns)) (.ascii85 [] hsymbols hblank))
    (.asciiHex (.ofAscii "7B") hdigits hspaced)

theorem decoded_encodedBy_chainedText :
    Declares chainedStore chainedDict [.asciiHex, .ascii85, .runLength] ∧
      chainedStore.security = none ∧
      EncodedBy [.asciiHex, .ascii85, .runLength] (List.replicate 8 0) chainedText ∧
      decoded ⟨chainedDict, chainedText, some ⟨7, 0⟩⟩ chainedStore = .ok (List.replicate 8 0) :=
  ⟨declares_chainedDict, rfl, encodedBy_chainedText,
    (decoded_encodedBy declares_chainedDict (.inl rfl) _).2 _ encodedBy_chainedText⟩

end Stream

end Folio
