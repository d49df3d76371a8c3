import Folio.Function
import Folio.Proofs.Store.Indirection

/-!
# Functions whose entries become references

The dictionaries of functions, of those nested in others too, are edited so that some of their entries refer to
indirect objects that hold their values. Main statement: `Function.readAlike_iff_and_independent`. What is read
stays the same whichever entries are moved that are read through the store; each of the others is missed in some
function.
-/

namespace Folio

open Indirection

variable {m : Indirection} {d e : Dict} {key : Name}

/-- What is read off an array that may not be moved. -/
theorem Indirection.DictBecomes.map_array?_eq {α : Type} {f : List Object → α}
    (hf : ∀ {xs ys : List Object}, m.ItemsBecome xs ys → f ys = f xs) (h : m.DictBecomes d e)
    (hkey : ¬ m.mayMove d key) :
    (e.getAs? Object.array? key).map f = (d.getAs? Object.array? key).map f :=
  map_eq_map_of_optionRel (optionRel_bind (h.kept_rel hkey) fun _ _ => Becomes.array?_rel) fun _ _ => hf

theorem float32s_eq {xs ys : List Object} (h : m.ItemsBecome xs ys) : Object.float32s ys = Object.float32s xs :=
  filterMap_eq Becomes.float32?_eq h

namespace Function

/-- The entries that say what a function does, other than its type. -/
def entryKeys : List Name :=
  ["BitsPerSample", "Bounds", "C0", "C1", "Decode", "Domain", "Encode", "Functions", "N", "Range", "Size"]

/-- The entries that are not read through the store, for functions of each type. -/
def directKeys : Nat → List Name
  | 0 => ["BitsPerSample", "Decode", "Domain", "Encode", "Range", "Size"]
  | 2 => ["C0", "C1", "Domain", "N", "Range"]
  | 3 => ["Domain", "Range"]
  | _ => []

end Function

theorem FunctionLimits.ofDict?_eq (h : m.DictBecomes d e) (hdomain : ¬ m.mayMove d "Domain")
    (hrange : ¬ m.mayMove d "Range") : ofDict? e = ofDict? d := by
  have hintervals {key : Name} (hkey : ¬ m.mayMove d key) : intervals? e key = intervals? d key :=
    h.map_array?_eq (fun hitems => congrArg Single.pairs (float32s_eq hitems)) hkey
  rw [ofDict?, ofDict?, hintervals hdomain, hintervals hrange]

theorem PowerFunction.ofDict?_eq (h : m.DictBecomes d e) (hkeys : ∀ key ∈ Function.directKeys 2, ¬ m.mayMove d key) :
    ofDict? e = ofDict? d := by
  have hlimits : FunctionLimits.ofDict? e = FunctionLimits.ofDict? d :=
    FunctionLimits.ofDict?_eq h (hkeys _ (by decide)) (hkeys _ (by decide))
  have hends {key : Name} (hkey : key ∈ Function.directKeys 2) : ends? e key = ends? d key :=
    h.map_array?_eq float32s_eq (hkeys _ hkey)
  have hexponent : e.getAs? Object.float32? "N" = d.getAs? Object.float32? "N" :=
    h.getAs?_eq Becomes.float32?_eq (hkeys _ (by decide))
  rw [ofDict?, ofDict?, hlimits, hends (by decide), hends (by decide), hexponent]

theorem SampledFunction.ofDict?_eq (h : m.DictBecomes d e)
    (hkeys : ∀ key ∈ Function.directKeys 0, ¬ m.mayMove d key) (data : Bytes) : ofDict? e data = ofDict? d data := by
  have hlimits : FunctionLimits.ofDict? e = FunctionLimits.ofDict? d :=
    FunctionLimits.ofDict?_eq h (hkeys _ (by decide)) (hkeys _ (by decide))
  have hintervals {key : Name} (hkey : key ∈ Function.directKeys 0) :
      FunctionLimits.intervals? e key = FunctionLimits.intervals? d key :=
    h.map_array?_eq (fun hitems => congrArg Single.pairs (float32s_eq hitems)) (hkeys _ hkey)
  have hwidth : e.getAs? Object.uint8? "BitsPerSample" = d.getAs? Object.uint8? "BitsPerSample" :=
    h.getAs?_eq Becomes.uint8?_eq (hkeys _ (by decide))
  have hsizes : Option.Rel m.ItemsBecome (d.getAs? Object.array? "Size") (e.getAs? Object.array? "Size") :=
    optionRel_bind (h.kept_rel (hkeys _ (by decide))) fun _ _ => Becomes.array?_rel
  unfold ofDict?
  rw [hlimits, hwidth, hintervals (by decide), hintervals (by decide)]
  refine Option.bind_congr fun width _ => Option.bind_congr fun _ _ => Option.bind_congr fun limits _ => ?_
  refine Option.bind_congr fun range _ => bind_eq_bind_of_optionRel hsizes fun xs ys hitems => ?_
  rw [filterMap_eq Becomes.uint32?_eq hitems]

namespace Function

variable {o p : Object}

theorem stitch?_eq (hm : m.IsEdit) (h : m.DictBecomes d e) (hkeys : ∀ key ∈ directKeys 3, ¬ m.mayMove d key)
    (parts : List Function) : stitch? e m.after parts = stitch? d m.before parts := by
  have hlimits : FunctionLimits.ofDict? e = FunctionLimits.ofDict? d :=
    FunctionLimits.ofDict?_eq h (hkeys _ (by decide)) (hkeys _ (by decide))
  have hread (key : Name) : Option.Rel m.ItemsBecome (m.before.entry? Object.array? d key)
      (m.after.entry? Object.array? e key) := h.entry?_rel Becomes.array?_rel hm key
  rw [stitch?, stitch?, hlimits]
  refine Option.bind_congr fun limits _ => ?_
  refine bind_eq_bind_of_optionRel (hread "Bounds") fun bounds bounds' hbounds => ?_
  refine bind_eq_bind_of_optionRel (hread "Encode") fun encode encode' hencode => ?_
  rw [float32s_eq hbounds, float32s_eq hencode]

theorem mapM_eq {α : Type} {f g : Object → Option α} (hfg : ∀ {o p : Object}, m.Becomes o p → g p = f o)
    {xs ys : List Object} (h : m.ItemsBecome xs ys) : ys.mapM g = xs.mapM f := by
  induction xs generalizing ys with
  | nil =>
    cases h
    rfl
  | cons x xs ih =>
    cases h with
    | cons hitem hitems => rw [List.mapM_cons, List.mapM_cons, hfg hitem, ih hitems]

/-- The entries of function dictionaries that are selected by the type of the function. -/
def movable (selected : Nat → Name → Prop) (d : Dict) (key : Name) : Prop :=
  ∃ kind ∈ d.getAs? Object.uint8? "FunctionType", selected kind.toNat key

theorem mem_entryKeys_of_movable {selected : Nat → Name → Prop}
    (hkeys : ∀ kind key, selected kind key → key ∈ entryKeys) (h : movable selected d key) : key ∈ entryKeys := by
  obtain ⟨kind, -, hselected⟩ := h
  exact hkeys _ _ hselected

/-- The entries that say how data are coded are not among those of functions. -/
theorem not_mem_codingKeys_of_mem_entryKeys : ∀ key ∈ entryKeys, key ∉ codingKeys := by decide

theorem sampled?_eq (hm : m.IsEdit) (hcoding : ∀ d key, m.mayMove d key → key ∉ codingKeys) (h : m.Becomes o p)
    (hdict : m.DictBecomes d e) (hkeys : ∀ key ∈ directKeys 0, ¬ m.mayMove d key) :
    (do
      let s ← p.stream?
      let data ← (s.decoded m.after).toOption
      let f ← SampledFunction.ofDict? e data
      some (sampled f)) =
    (do
      let s ← o.stream?
      let data ← (s.decoded m.before).toOption
      let f ← SampledFunction.ofDict? d data
      some (sampled f)) := by
  cases h with
  | stream data reference hentries =>
    show ((Stream.decoded _ _).toOption >>= _) = ((Stream.decoded _ _).toOption >>= _)
    rw [decoded_eq hm hcoding hentries]
    refine Option.bind_congr fun data _ => ?_
    rw [SampledFunction.ofDict?_eq hdict hkeys]
  | _ => rfl

/-- If no selected entry is read without the store, objects describe the same functions after an edit. -/
theorem ofObjectWithin?_eq {selected : Nat → Name → Prop} (hm : m.IsEdit) (hmovable : m.mayMove = movable selected)
    (hkeys : ∀ kind key, selected kind key → key ∈ entryKeys)
    (hdirect : ∀ kind key, selected kind key → key ∉ directKeys kind) (levels : Nat) (h : m.Becomes o p) :
    ofObjectWithin? m.after levels p = ofObjectWithin? m.before levels o := by
  have hentry : ∀ d key, m.mayMove d key → key ∈ entryKeys := by
    rw [hmovable]
    exact fun _ _ => mem_entryKeys_of_movable hkeys
  induction levels generalizing o p with
  | zero => rfl
  | succ levels ih =>
    rw [ofObjectWithin?, ofObjectWithin?]
    refine bind_eq_bind_of_optionRel (resolve?_becomes hm h) fun x y hxy => ?_
    refine bind_eq_bind_of_optionRel hxy.dictLike?_rel fun d e hdict => ?_
    have htype : e.getAs? Object.uint8? "FunctionType" = d.getAs? Object.uint8? "FunctionType" :=
      hdict.getAs?_eq Becomes.uint8?_eq fun hmove => absurd (hentry d _ hmove) (by decide)
    rw [htype]
    refine Option.bind_congr fun kind hkind => ?_
    have hkept : ∀ key ∈ directKeys kind.toNat, ¬ m.mayMove d key := by
      rw [hmovable]
      rintro key hkey ⟨kind', hkind', hselected⟩
      obtain rfl := Option.some.inj ((Option.mem_def.mp hkind).symm.trans hkind')
      exact hdirect _ _ hselected hkey
    generalize kind.toNat = type at hkept ⊢
    match type with
    | 0 =>
      have hcoding : ∀ d key, m.mayMove d key → key ∉ codingKeys := fun d key hmove =>
        not_mem_codingKeys_of_mem_entryKeys key (hentry d key hmove)
      exact sampled?_eq hm hcoding hxy hdict hkept
    | 2 => exact congrArg (Option.bind · fun f => some (power f)) (PowerFunction.ofDict?_eq hdict hkept)
    | 3 =>
      refine bind_eq_bind_of_optionRel (hdict.entry?_rel Becomes.array?_rel hm "Functions") fun xs ys hitems => ?_
      rw [mapM_eq ih hitems]
      exact Option.bind_congr fun parts _ => stitch?_eq hm hdict hkept parts
    | 1 => rfl
    | _ + 4 => rfl

/-- Whether functions stay accepted, with the same results, when some of the selected entries of theirs and of those
nested in them are put under new references. -/
def Independent (selected : Nat → Name → Prop) : Prop :=
  ∀ m : Indirection, m.IsEdit → m.mayMove = movable selected → ∀ o p : Object, m.Becomes o p →
    ∀ f, ofObject? m.before o = some f → ∃ g, ofObject? m.after p = some g ∧ ∀ xs, g.eval xs = f.eval xs

/-- Whether what is read of accepted functions stays the same under these edits. -/
def ReadAlike (selected : Nat → Name → Prop) : Prop :=
  ∀ m : Indirection, m.IsEdit → m.mayMove = movable selected → ∀ o p : Object, m.Becomes o p →
    ∀ f, ofObject? m.before o = some f → ofObject? m.after p = some f

/-- An array of integers. -/
def integers (items : List Int64) : Object := .array (items.map fun i => .number (.integer i))

/-- The entries of a table of two samples for arguments and results from zero to one. -/
def tableEntries : List (Name × Object) :=
  [("BitsPerSample", .number (.integer 8)), ("Domain", integers [0, 1]), ("FunctionType", .number (.integer 0)),
    ("Range", integers [0, 1]), ("Size", integers [2])]

/-- A store with the table. -/
def tableStore : Store := .put .empty ⟨2, 0⟩ (.stream ⟨.ofList tableEntries, [0, 255], none⟩)

theorem isEdit_moveTo_tableStore (value : Object) (mayMove : Dict → Name → Prop) :
    (moveTo tableStore ⟨1, 0⟩ value mayMove).IsEdit := by
  refine isEdit_moveTo (by decide) (fun q o hq => ?_) value
  rw [tableStore, Store.get?_put] at hq
  split at hq
  · obtain rfl := Option.some.inj hq
    decide
  · cases hq

/-- The number of intervals of a function that it need not state. -/
def optionalIntervals : Function → Nat
  | .sampled f => f.encode.length + f.decode.length
  | .power f => (f.limits.range.getD []).length
  | .stitched limits _ _ _ => (limits.range.getD []).length

/-- A function and an entry of it that matters. -/
structure Sample where
  kind : Nat
  key : Name
  dict : Dict
  /-- The data, if the function is a stream. -/
  data : Option Bytes

namespace Sample

/-- The function with another dictionary. -/
def object (t : Sample) (d : Dict) : Object :=
  match t.data with
  | none => .dict d
  | some data => .stream ⟨d, data, none⟩

/-- How many of those intervals are read of the function, if it is accepted. -/
def intervals? (t : Sample) (s : Store) (d : Dict) : Option Nat :=
  (ofObject? s (t.object d)).map Function.optionalIntervals

/-- Whether the function is accepted, and no longer or with fewer or more intervals if the entry is moved. -/
def Tells (t : Sample) : Prop :=
  (t.dict.getAs? Object.uint8? "FunctionType").map UInt8.toNat = some t.kind ∧
    Dict.Increasing t.dict.entries ∧ Object.anyValueMentions ⟨1, 0⟩ t.dict.entries = false ∧
    ∃ value ∈ t.dict.get? t.key, value.ref? = none ∧ (t.intervals? tableStore t.dict).isSome ∧
      t.intervals? (tableStore.put ⟨1, 0⟩ value) (t.dict.insert t.key (.ref ⟨1, 0⟩)) ≠ t.intervals? tableStore t.dict

instance (t : Sample) : Decidable t.Tells := inferInstanceAs (Decidable (_ ∧ _))

theorem Tells.exists_edit {t : Sample} (h : t.Tells) {selected : Nat → Name → Prop}
    (hselected : selected t.kind t.key) :
    ∃ m : Indirection, m.IsEdit ∧ m.mayMove = movable selected ∧ ∃ o p f, m.Becomes o p ∧
      ofObject? m.before o = some f ∧ ofObject? m.after p ≠ some f := by
  obtain ⟨htype, hincreasing, hunused, value, hvalue, hdirect, haccepted, hdiffers⟩ := h
  obtain ⟨kind, hkind, hkindEq⟩ := Option.map_eq_some_iff.mp htype
  obtain ⟨f, hf⟩ := Option.isSome_iff_exists.mp ((Option.isSome_map).symm.trans haccepted)
  have hdict : (moveTo tableStore ⟨1, 0⟩ value (movable selected)).DictBecomes t.dict
      (t.dict.insert t.key (.ref ⟨1, 0⟩)) :=
    dictBecomes_insert hincreasing hvalue ⟨kind, hkind, hkindEq ▸ hselected⟩ hdirect hunused
  refine ⟨_, isEdit_moveTo_tableStore value _, rfl, t.object t.dict, t.object (t.dict.insert t.key (.ref ⟨1, 0⟩)), f,
    ?_, hf, fun hg => hdiffers ?_⟩
  · unfold object
    cases t.data with
    | none => exact .dict hdict
    | some data => exact .stream data none hdict
  · exact congrArg (Option.map _) (hg.trans hf.symm)

/-- A power for arguments and results from zero to one. -/
def power : Dict :=
  .ofList
    [("C0", integers [1, 2]), ("C1", integers [3, 4]), ("Domain", integers [0, 1]),
      ("FunctionType", .number (.integer 2)), ("N", .number (.integer 1)), ("Range", integers [0, 1])]

/-- One sample for each entry that is not read through the store. -/
def all : List Sample :=
  let table := .ofList (("Decode", integers [0, 1, 0, 1]) :: ("Encode", integers [0, 1, 0, 1]) :: tableEntries)
  let stitched := .ofList
    [("Bounds", .array []), ("Domain", integers [0, 1]), ("Encode", integers [0, 1]),
      ("FunctionType", .number (.integer 3)), ("Functions", .array [.ref ⟨2, 0⟩]), ("Range", integers [0, 1])]
  (directKeys 0).map (⟨0, ·, table, some [0, 255]⟩) ++ (directKeys 2).map (⟨2, ·, power, none⟩) ++
    (directKeys 3).map (⟨3, ·, stitched, none⟩)

theorem tells_of_mem_all : ∀ t ∈ all, t.Tells := by decide +kernel

theorem exists_of_mem_directKeys {kind : Nat} {key : Name} (h : key ∈ directKeys kind) :
    ∃ t ∈ all, t.kind = kind ∧ t.key = key :=
  match kind with
  | 0 => (by decide +kernel : ∀ key ∈ directKeys 0, ∃ t ∈ all, t.kind = 0 ∧ t.key = key) key h
  | 2 => (by decide +kernel : ∀ key ∈ directKeys 2, ∃ t ∈ all, t.kind = 2 ∧ t.key = key) key h
  | 3 => (by decide +kernel : ∀ key ∈ directKeys 3, ∃ t ∈ all, t.kind = 3 ∧ t.key = key) key h
  | 1 => absurd h List.not_mem_nil
  | _ + 4 => absurd h List.not_mem_nil

end Sample

/-- What is read of functions stays the same exactly if no entry is moved that is not read through the store; then the
functions are independent of the edits. -/
theorem readAlike_iff_and_independent {selected : Nat → Name → Prop}
    (hkeys : ∀ kind key, selected kind key → key ∈ entryKeys) :
    (ReadAlike selected ↔ ∀ kind key, selected kind key → key ∉ directKeys kind) ∧
      ((∀ kind key, selected kind key → key ∉ directKeys kind) → Independent selected) := by
  have hread (hdirect : ∀ kind key, selected kind key → key ∉ directKeys kind) : ReadAlike selected :=
    fun m hm hmovable o p h f hf => (ofObjectWithin?_eq hm hmovable hkeys hdirect maxNesting h).trans hf
  refine ⟨⟨fun halike kind key hselected hdirect => ?_, hread⟩, fun hdirect m hm hmovable o p h f hf => ?_⟩
  · obtain ⟨t, ht, rfl, rfl⟩ := Sample.exists_of_mem_directKeys hdirect
    obtain ⟨m, hm, hmovable, o, p, f, h, hf, hne⟩ := (Sample.tells_of_mem_all t ht).exists_edit hselected
    exact hne (halike m hm hmovable o p h f hf)
  · exact ⟨f, hread hdirect m hm hmovable o p h f hf, fun _ => rfl⟩

/-- All that the selection of a part reads may be moved, and its domain may not. -/
theorem readAlike_iff_and_independent_stitched :
    Independent (fun kind key => kind = 3 ∧ key ∈ (["Bounds", "Encode", "Functions"] : List Name)) ∧
      ¬ ReadAlike (fun kind key => kind = 3 ∧ key = "Domain") := by
  have hparts : ∀ key ∈ (["Bounds", "Encode", "Functions"] : List Name), key ∈ entryKeys ∧ key ∉ directKeys 3 := by
    decide
  constructor
  · refine (readAlike_iff_and_independent fun _ key h => (hparts key h.2).1).2 ?_
    rintro _ key ⟨rfl, hkey⟩
    exact (hparts key hkey).2
  · intro halike
    have hdomain : ∀ (kind : Nat) (key : Name), kind = 3 ∧ key = "Domain" → key ∈ entryKeys := by
      rintro _ _ ⟨-, rfl⟩
      decide
    exact (readAlike_iff_and_independent hdomain).1.mp halike 3 _ ⟨rfl, rfl⟩ (by decide)

/-- A power whose exponent is moved is no longer accepted. -/
theorem not_independent : ¬ Independent (fun kind key => kind ∈ [0, 2, 3] ∧ key ∈ entryKeys) := by
  intro hindependent
  have hmovable : movable (fun kind key => kind ∈ [0, 2, 3] ∧ key ∈ entryKeys) Sample.power "N" :=
    ⟨2, rfl, by decide, by decide⟩
  have hdict := dictBecomes_insert (s := tableStore) (r := ⟨1, 0⟩) (by decide) rfl hmovable rfl rfl
  have haccepted : (ofObject? tableStore (.dict Sample.power)).isSome := by decide +kernel
  obtain ⟨f, hf⟩ := Option.isSome_iff_exists.mp haccepted
  obtain ⟨g, hg, -⟩ := hindependent _ (isEdit_moveTo_tableStore _ _) rfl _ _ (.dict hdict) f hf
  have hrefused : ofObject? (tableStore.put ⟨1, 0⟩ (.number (.integer 1)))
      (.dict (Sample.power.insert "N" (.ref ⟨1, 0⟩))) = none := Option.isNone_iff_eq_none.mp (by decide +kernel)
  cases hrefused.symm.trans hg

end Function

end Folio
