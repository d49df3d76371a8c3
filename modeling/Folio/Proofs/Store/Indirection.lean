import Folio.Store.Stream
import Folio.Proofs.Except
import Folio.Proofs.NameTree.Height
import Folio.Proofs.Store.Body

/-!
# Entries that become references

A document is edited: some entries of its dictionaries, at any depth of any object, no longer hold their values
but refer to new indirect objects that hold them (`Indirection`). Main statements: what an object stands for
becomes the edited form of what it stood for (`resolve?_becomes`), so that an entry says the same before and
after if it is read through the store (`entry?_rel`), and so do the data of streams (`decoded_eq`).
-/

namespace Folio

/-! ## Results that are related -/

theorem optionRel_bind {α β γ δ : Type} {R : α → β → Prop} {S : γ → δ → Prop} {x : Option α} {y : Option β}
    {f : α → Option γ} {g : β → Option δ} (h : Option.Rel R x y)
    (hfg : ∀ a b, R a b → Option.Rel S (f a) (g b)) : Option.Rel S (x.bind f) (y.bind g) := by
  cases h with
  | none => exact .none
  | some h => exact hfg _ _ h

theorem eq_none_or_some_of_optionRel {α β : Type} {R : α → β → Prop} {x : Option α} {y : Option β}
    (h : Option.Rel R x y) : x = none ∧ y = none ∨ ∃ a b, x = some a ∧ y = some b ∧ R a b := by
  cases h with
  | none => exact .inl ⟨rfl, rfl⟩
  | some h => exact .inr ⟨_, _, rfl, rfl, h⟩

theorem optionRel_mono {α β : Type} {R S : α → β → Prop} {x : Option α} {y : Option β} (h : Option.Rel R x y)
    (himp : ∀ a b, R a b → S a b) : Option.Rel S x y := by
  cases h with
  | none => exact .none
  | some h => exact .some (himp _ _ h)

theorem map_eq_map_of_optionRel {α β γ : Type} {R : α → β → Prop} {x : Option α} {y : Option β} {f : α → γ}
    {g : β → γ} (h : Option.Rel R x y) (hfg : ∀ a b, R a b → g b = f a) : y.map g = x.map f := by
  cases h with
  | none => rfl
  | some h => exact congrArg some (hfg _ _ h)

theorem bind_eq_bind_of_optionRel {α β γ : Type} {R : α → β → Prop} {x : Option α} {y : Option β}
    {f : α → Option γ} {g : β → Option γ} (h : Option.Rel R x y) (hfg : ∀ a b, R a b → g b = f a) :
    y.bind g = x.bind f := by
  cases h with
  | none => rfl
  | some h => exact hfg _ _ h

/-! ## References in objects -/

mutual

/-- Whether an object refers to an indirect object, at any depth. -/
def Object.mentions (r : Ref) : Object → Bool
  | .ref target => target == r
  | .array items => Object.anyMentions r items
  | .dict ⟨entries⟩ => Object.anyValueMentions r entries
  | .stream ⟨⟨entries⟩, _, _⟩ => Object.anyValueMentions r entries
  | _ => false

/-- Whether one of the objects refers to an indirect object. -/
def Object.anyMentions (r : Ref) : List Object → Bool
  | [] => false
  | x :: xs => Object.mentions r x || Object.anyMentions r xs

/-- Whether the value of one of the entries refers to an indirect object. -/
def Object.anyValueMentions (r : Ref) : List (Name × Object) → Bool
  | [] => false
  | (_, x) :: xs => Object.mentions r x || Object.anyValueMentions r xs

end

/-! ## Edits of a document -/

/-- An edit of a document that puts values of entries under new references. -/
structure Indirection where
  before : Store
  after : Store
  /-- The references that the edit introduces. -/
  isNew : Ref → Prop
  /-- The entries of which each may be kept or moved. -/
  mayMove : Dict → Name → Prop

namespace Indirection

mutual

/-- Whether the edit makes one object of another. The edited object has no new references before. -/
inductive Becomes (m : Indirection) : Object → Object → Prop
  | null : Becomes m .null .null
  | bool (b : Bool) : Becomes m (.bool b) (.bool b)
  | number (n : Number) : Becomes m (.number n) (.number n)
  | str (s : Str) : Becomes m (.str s) (.str s)
  | name (n : Name) : Becomes m (.name n) (.name n)
  | array {xs ys : List Object} : ItemsBecome m xs ys → Becomes m (.array xs) (.array ys)
  | dict {d e : Dict} : EntriesBecome m d d.entries e.entries → Becomes m (.dict d) (.dict e)
  | stream {d e : Dict} (data : Bytes) (reference : Option Ref) :
    EntriesBecome m d d.entries e.entries → Becomes m (.stream ⟨d, data, reference⟩) (.stream ⟨e, data, reference⟩)
  | ref {r : Ref} : ¬ m.isNew r → Becomes m (.ref r) (.ref r)

/-- Whether the edit makes the items of one array of those of another. -/
inductive ItemsBecome (m : Indirection) : List Object → List Object → Prop
  | nil : ItemsBecome m [] []
  | cons {x y : Object} {xs ys : List Object} :
    Becomes m x y → ItemsBecome m xs ys → ItemsBecome m (x :: xs) (y :: ys)

/-- Whether the edit makes one value of a dictionary's entry of another. A value that is moved is found under its
new reference, itself edited; an object that stands for the same value may be there in its place. -/
inductive ValueBecomes (m : Indirection) : Dict → Name → Object → Object → Prop
  | kept {d : Dict} {key : Name} {v w : Object} : Becomes m v w → ValueBecomes m d key v w
  | moved {d : Dict} {key : Name} {v held w : Object} {r : Ref} :
    m.mayMove d key → m.isNew r → (∀ q, m.isNew q → v.mentions q = false) → m.after.get? r = some w →
      Becomes m held w → m.before.follow? (Store.maxChain - 1) held = m.before.resolve? v →
      ValueBecomes m d key v (.ref r)

/-- Whether the edit makes some entries of a dictionary of others. -/
inductive EntriesBecome (m : Indirection) : Dict → List (Name × Object) → List (Name × Object) → Prop
  | nil {d : Dict} : EntriesBecome m d [] []
  | cons {d : Dict} {key : Name} {v w : Object} {xs ys : List (Name × Object)} :
    ValueBecomes m d key v w → EntriesBecome m d xs ys → EntriesBecome m d ((key, v) :: xs) ((key, w) :: ys)

end

/-- Whether the edit makes one dictionary of another. -/
def DictBecomes (m : Indirection) (d e : Dict) : Prop := m.EntriesBecome d d.entries e.entries

/-- Whether a document becomes another one by an edit. -/
structure IsEdit (m : Indirection) : Prop where
  /-- The new references are not in use. -/
  absent : ∀ r, m.isNew r → m.before.get? r = none
  /-- The other indirect objects are edited where they are. -/
  edited : ∀ r, ¬ m.isNew r → Option.Rel m.Becomes (m.before.get? r) (m.after.get? r)
  security_eq : m.after.security = m.before.security

variable {m : Indirection} {o p : Object} {xs ys : List Object} {d e : Dict} {key : Name}

/-! ## Reading edited objects -/

theorem Becomes.number?_eq (h : m.Becomes o p) : p.number? = o.number? := by
  cases h <;> rfl

theorem Becomes.name?_eq (h : m.Becomes o p) : p.name? = o.name? := by
  cases h <;> rfl

theorem Becomes.ref?_eq (h : m.Becomes o p) : p.ref? = o.ref? := by
  cases h <;> rfl

theorem Becomes.float32?_eq (h : m.Becomes o p) : p.float32? = o.float32? := by
  rw [Object.float32?, Object.float32?, h.number?_eq]

theorem Becomes.natBelow?_eq (h : m.Becomes o p) (bound : Nat) : p.natBelow? bound = o.natBelow? bound := by
  simp only [Object.natBelow?, Object.intWithin?, Object.int64?, h.number?_eq]

theorem Becomes.uint8?_eq (h : m.Becomes o p) : p.uint8? = o.uint8? := by
  rw [Object.uint8?, Object.uint8?, h.natBelow?_eq]

theorem Becomes.uint32?_eq (h : m.Becomes o p) : p.uint32? = o.uint32? := by
  rw [Object.uint32?, Object.uint32?, h.natBelow?_eq]

theorem Becomes.array?_rel (h : m.Becomes o p) : Option.Rel m.ItemsBecome o.array? p.array? := by
  cases h with
  | array h => exact .some h
  | _ => exact .none

theorem Becomes.dict?_rel (h : m.Becomes o p) : Option.Rel m.DictBecomes o.dict? p.dict? := by
  cases h with
  | dict h => exact .some h
  | _ => exact .none

theorem Becomes.dictLike?_rel (h : m.Becomes o p) : Option.Rel m.DictBecomes o.dictLike? p.dictLike? := by
  cases h with
  | dict h => exact .some h
  | stream _ _ h => exact .some h
  | _ => exact .none

theorem filterMap_eq {α : Type} {cast cast' : Object → Option α}
    (hcast : ∀ {o p : Object}, m.Becomes o p → cast' p = cast o) (h : m.ItemsBecome xs ys) :
    ys.filterMap cast' = xs.filterMap cast := by
  induction xs generalizing ys with
  | nil =>
    cases h
    rfl
  | cons x xs ih =>
    cases h with
    | cons hitem hitems => rw [List.filterMap_cons, List.filterMap_cons, hcast hitem, ih hitems]

/-- An item of an edited array. -/
theorem getElem?_rel (h : m.ItemsBecome xs ys) (index : Nat) : Option.Rel m.Becomes xs[index]? ys[index]? := by
  induction xs generalizing ys index with
  | nil =>
    cases h
    exact .none
  | cons x xs ih =>
    cases h with
    | cons hitem hitems =>
      cases index with
      | zero => exact .some hitem
      | succ index => exact ih hitems index

theorem DictBecomes.get?_rel (h : m.DictBecomes d e) (key : Name) :
    Option.Rel (m.ValueBecomes d key) (d.get? key) (e.get? key) := by
  have hentries : ∀ xs ys, m.EntriesBecome d xs ys →
      Option.Rel (m.ValueBecomes d key) (Dict.findEntry key xs) (Dict.findEntry key ys) := by
    intro xs
    induction xs with
    | nil =>
      rintro _ ⟨⟩
      exact .none
    | cons x xs ih =>
      rintro _ (_ | ⟨hvalue, hrest⟩)
      rw [Dict.findEntry, Dict.findEntry]
      split
      · rename_i heq
        exact .some (heq ▸ hvalue)
      · exact ih _ hrest
  exact hentries _ _ h

/-- An entry that may not be moved. -/
theorem DictBecomes.kept_rel (h : m.DictBecomes d e) (hkey : ¬ m.mayMove d key) :
    Option.Rel m.Becomes (d.get? key) (e.get? key) := by
  refine optionRel_mono (h.get?_rel key) fun v w hvalue => ?_
  cases hvalue with
  | kept hvalue => exact hvalue
  | moved hmove => exact absurd hmove hkey

theorem DictBecomes.getAs?_eq {α : Type} {cast : Object → Option α}
    (hcast : ∀ {o p : Object}, m.Becomes o p → cast p = cast o) (h : m.DictBecomes d e) (hkey : ¬ m.mayMove d key) :
    e.getAs? cast key = d.getAs? cast key :=
  bind_eq_bind_of_optionRel (h.kept_rel hkey) fun _ _ => hcast

/-! ## Reading through the store -/

theorem follow?_becomes (hm : m.IsEdit) (h : m.Becomes o p) (steps : Nat) :
    Option.Rel m.Becomes (m.before.follow? steps o) (m.after.follow? steps p) := by
  induction steps generalizing o p with
  | zero => exact .none
  | succ steps ih =>
    cases h with
    | ref hold => exact optionRel_bind (hm.edited _ hold) fun _ _ => ih
    | null => exact .some .null
    | bool b => exact .some (.bool b)
    | number n => exact .some (.number n)
    | str s => exact .some (.str s)
    | name n => exact .some (.name n)
    | array h => exact .some (.array h)
    | dict h => exact .some (.dict h)
    | stream data reference h => exact .some (.stream data reference h)

/-- What an object stands for. -/
theorem resolve?_becomes (hm : m.IsEdit) (h : m.Becomes o p) :
    Option.Rel m.Becomes (m.before.resolve? o) (m.after.resolve? p) :=
  follow?_becomes hm h Store.maxChain

/-- What the value of an entry stands for. A new reference takes one step, and the rest is left for the object
under it. -/
theorem ValueBecomes.resolve?_rel (hm : m.IsEdit) {v w : Object} (h : m.ValueBecomes d key v w) :
    Option.Rel m.Becomes (m.before.resolve? v) (m.after.resolve? w) := by
  cases h with
  | kept h => exact resolve?_becomes hm h
  | @moved _ _ _ held w r _ _ _ hget hheld hsame =>
    have hstep : m.after.resolve? (.ref r) = m.after.follow? (Store.maxChain - 1) w := by
      show (m.after.get? r).bind (m.after.follow? (Store.maxChain - 1)) = _
      rw [hget]
      rfl
    rw [hstep, ← hsame]
    exact follow?_becomes hm hheld _

theorem DictBecomes.resolve?_rel (hm : m.IsEdit) (h : m.DictBecomes d e) (key : Name) :
    Option.Rel m.Becomes ((d.get? key).bind m.before.resolve?) ((e.get? key).bind m.after.resolve?) :=
  optionRel_bind (h.get?_rel key) fun _ _ => ValueBecomes.resolve?_rel hm

theorem DictBecomes.entry?_eq {α : Type} {cast : Object → Option α}
    (hcast : ∀ {o p : Object}, m.Becomes o p → cast p = cast o) (hm : m.IsEdit) (h : m.DictBecomes d e)
    (key : Name) : m.after.entry? cast e key = m.before.entry? cast d key := by
  have hread := bind_eq_bind_of_optionRel (h.resolve?_rel hm key) fun _ _ => hcast
  rwa [Option.bind_assoc, Option.bind_assoc] at hread

theorem DictBecomes.entry?_rel {α : Type} {R : α → α → Prop} {cast : Object → Option α}
    (hcast : ∀ {o p : Object}, m.Becomes o p → Option.Rel R (cast o) (cast p)) (hm : m.IsEdit)
    (h : m.DictBecomes d e) (key : Name) :
    Option.Rel R (m.before.entry? cast d key) (m.after.entry? cast e key) := by
  have hread := optionRel_bind (h.resolve?_rel hm key) fun _ _ => hcast
  rwa [Option.bind_assoc, Option.bind_assoc] at hread

/-! ## Decoding edited streams -/

/-- The entries that say how the data of a stream are coded. -/
def codingKeys : List Name :=
  ["Type", "Filter", "DecodeParms", "Predictor", "Colors", "BitsPerComponent", "Columns"]

variable {s : Stream}

theorem predictor_eq (hkeys : ∀ d key, m.mayMove d key → key ∉ codingKeys) (h : m.DictBecomes d e) :
    Filter.Predictor.ofDict e = Filter.Predictor.ofDict d := by
  have hkept {key : Name} (hkey : key ∈ codingKeys) : ¬ m.mayMove d key := fun hmove => hkeys d key hmove hkey
  have hbyte {key : Name} (hkey : key ∈ codingKeys) :
      e.getAs? Object.uint8? key = d.getAs? Object.uint8? key :=
    h.getAs?_eq Becomes.uint8?_eq (hkept hkey)
  have hcolumns : e.getAs? Object.nat? "Columns" = d.getAs? Object.nat? "Columns" :=
    h.getAs?_eq (fun h => h.natBelow?_eq _) (hkept (by decide))
  unfold Filter.Predictor.ofDict
  dsimp only
  rw [hbyte (by decide), hbyte (by decide), hbyte (by decide), hcolumns]

theorem decode?_eq (hkeys : ∀ d key, m.mayMove d key → key ∉ codingKeys) {params params' : Option Dict}
    (h : Option.Rel m.DictBecomes params params') (f : Filter) (data : Bytes) :
    f.decode? data params' = f.decode? data params := by
  have hpredictor : params'.map Filter.Predictor.ofDict = params.map Filter.Predictor.ofDict :=
    map_eq_map_of_optionRel h fun _ _ => predictor_eq hkeys
  unfold Filter.decode?
  rw [hpredictor]

/-- Whether two filters are the same and the edit makes the parameters of one of those of the other. -/
def StepBecomes (m : Indirection) (x y : FilterStep) : Prop := x.1 = y.1 ∧ Option.Rel m.DictBecomes x.2 y.2

/-- Whether two streams have the same data, and a filter for images is left in both or in none. -/
def DecodedAlike (x y : DecodedStream) : Prop := x.data = y.data ∧ x.imageFilter.isSome = y.imageFilter.isSome

variable {data : Bytes} {reference : Option Ref}

theorem filterNames_eq (hm : m.IsEdit) (hkeys : ∀ d key, m.mayMove d key → key ∉ codingKeys)
    (h : m.DictBecomes d e) :
    Stream.filterNames ⟨e, data, reference⟩ m.after = Stream.filterNames ⟨d, data, reference⟩ m.before := by
  have hname {o p : Object} (h : m.Becomes o p) :
      m.after.resolveAs? Object.name? p = m.before.resolveAs? Object.name? o :=
    bind_eq_bind_of_optionRel (resolve?_becomes hm h) fun _ _ => Becomes.name?_eq
  have hkept : ¬ m.mayMove d "Filter" := fun hmove => hkeys d _ hmove (by decide)
  unfold Stream.filterNames
  dsimp only
  rcases eq_none_or_some_of_optionRel (h.kept_rel hkept) with ⟨hd, he⟩ | ⟨v, w, hd, he, hvalue⟩
  · rw [hd, he]
  · rw [hd, he]
    dsimp only
    rcases eq_none_or_some_of_optionRel (resolve?_becomes hm hvalue) with ⟨hv, hw⟩ | ⟨o, p, hv, hw, hentry⟩
    · rw [hv, hw]
    · rw [hv, hw]
      cases hentry with
      | array hitems => exact congrArg Except.ok (filterMap_eq hname hitems)
      | _ => rfl

theorem filterParams_rel (hm : m.IsEdit) (h : m.DictBecomes d e) (index : Nat) :
    Option.Rel m.DictBecomes (Stream.filterParams ⟨d, data, reference⟩ m.before index)
      (Stream.filterParams ⟨e, data, reference⟩ m.after index) := by
  unfold Stream.filterParams
  dsimp only
  rcases eq_none_or_some_of_optionRel (h.resolve?_rel hm "DecodeParms") with
    ⟨hd, he⟩ | ⟨o, p, hd, he, hentry⟩
  · rw [hd, he]
    exact .none
  · rw [hd, he]
    cases hentry with
    | dict hdict =>
      dsimp only
      split
      · exact .some hdict
      · exact .none
    | array hitems =>
      refine optionRel_bind (getElem?_rel hitems index) fun _ _ hitem => ?_
      exact optionRel_bind (resolve?_becomes hm hitem) fun _ _ => Becomes.dict?_rel
    | _ => exact .none

theorem applyFilters_rel (hkeys : ∀ d key, m.mayMove d key → key ∉ codingKeys) {steps steps' : List FilterStep}
    (h : List.Forall₂ m.StepBecomes steps steps') (data : Bytes) :
    Except.Rel DecodedAlike (Stream.applyFilters steps data) (Stream.applyFilters steps' data) := by
  induction h generalizing data with
  | nil => exact .ok ⟨rfl, rfl⟩
  | @cons x y _ _ hstep _ ih =>
    obtain ⟨f, params⟩ := x
    obtain ⟨f', params'⟩ := y
    obtain ⟨rfl, hparams⟩ : f = f' ∧ Option.Rel m.DictBecomes params params' := hstep
    rw [Stream.applyFilters, Stream.applyFilters, decode?_eq hkeys hparams]
    split
    · exact .ok ⟨rfl, rfl⟩
    · cases f.decode? data params with
      | none => exact .error _
      | some data => exact ih data

theorem filters_rel (hm : m.IsEdit) (hkeys : ∀ d key, m.mayMove d key → key ∉ codingKeys)
    (h : m.DictBecomes d e) :
    Except.Rel (List.Forall₂ m.StepBecomes) (Stream.filters ⟨d, data, reference⟩ m.before)
      (Stream.filters ⟨e, data, reference⟩ m.after) := by
  unfold Stream.filters
  rw [filterNames_eq hm hkeys h]
  cases Stream.filterNames ⟨d, data, reference⟩ m.before with
  | error error => exact .error error
  | ok names =>
    rw [Except.ok_bind, Except.ok_bind]
    refine Except.rel_mapM fun x _ => ?_
    obtain ⟨name, index⟩ := x
    dsimp only
    cases Filter.ofName? name with
    | none => exact .error _
    | some f => exact .ok ⟨rfl, filterParams_rel hm h index⟩

/-- The data of a stream that keeps the entries that say how they are coded. -/
theorem decoded_eq (hm : m.IsEdit) (hkeys : ∀ d key, m.mayMove d key → key ∉ codingKeys)
    (h : m.DictBecomes d e) :
    Stream.decoded ⟨e, data, reference⟩ m.after = Stream.decoded ⟨d, data, reference⟩ m.before := by
  have hdecrypted :
      Stream.decrypted ⟨e, data, reference⟩ m.after = Stream.decrypted ⟨d, data, reference⟩ m.before := by
    have htype : e.getAs? Object.name? "Type" = d.getAs? Object.name? "Type" :=
      h.getAs?_eq Becomes.name?_eq fun hmove => hkeys d _ hmove (by decide)
    unfold Stream.decrypted Stream.isReferenceTable
    dsimp only
    rw [hm.security_eq, htype]
  have hdecode : Except.Rel DecodedAlike (Stream.decode ⟨d, data, reference⟩ m.before)
      (Stream.decode ⟨e, data, reference⟩ m.after) := by
    unfold Stream.decode
    rw [hdecrypted]
    cases Stream.decrypted ⟨d, data, reference⟩ m.before with
    | error error => exact .error error
    | ok decrypted =>
      rw [Except.ok_bind, Except.ok_bind]
      exact (filters_rel hm hkeys h).bind fun _ _ hsteps => applyFilters_rel hkeys hsteps decrypted
  refine (Except.Rel.eq (hdecode.bind fun x y halike => ?_)).symm
  obtain ⟨out, filter⟩ := x
  obtain ⟨out', filter'⟩ := y
  obtain ⟨rfl, hfilter⟩ : out = out' ∧ filter.isSome = filter'.isSome := halike
  cases filter with
  | none =>
    obtain rfl : filter' = none := Option.not_isSome_iff_eq_none.mp (by rw [← hfilter]; exact Bool.false_ne_true)
    exact .ok rfl
  | some _ =>
    obtain ⟨_, rfl⟩ := Option.isSome_iff_exists.mp hfilter.symm
    exact .error _

/-! ## Moving a single entry -/

mutual

theorem becomes_self : ∀ o : Object, (∀ r, m.isNew r → o.mentions r = false) → m.Becomes o o
  | .null, _ => .null
  | .bool b, _ => .bool b
  | .number n, _ => .number n
  | .str s, _ => .str s
  | .name n, _ => .name n
  | .array items, h => .array (itemsBecome_self items h)
  | .dict ⟨entries⟩, h => .dict (entriesBecome_self ⟨entries⟩ entries h)
  | .stream ⟨⟨entries⟩, data, reference⟩, h => .stream data reference (entriesBecome_self ⟨entries⟩ entries h)
  | .ref r, h => .ref fun hnew => by simpa [Object.mentions] using h r hnew

theorem itemsBecome_self :
    ∀ items : List Object, (∀ r, m.isNew r → Object.anyMentions r items = false) → m.ItemsBecome items items
  | [], _ => .nil
  | x :: xs, h =>
    have hboth : ∀ r, m.isNew r → x.mentions r = false ∧ Object.anyMentions r xs = false := fun r hnew =>
      Bool.or_eq_false_iff.mp (h r hnew)
    .cons (becomes_self x fun r hnew => (hboth r hnew).1) (itemsBecome_self xs fun r hnew => (hboth r hnew).2)

theorem entriesBecome_self (d : Dict) :
    ∀ entries : List (Name × Object), (∀ r, m.isNew r → Object.anyValueMentions r entries = false) →
      m.EntriesBecome d entries entries
  | [], _ => .nil
  | (_, x) :: xs, h =>
    have hboth : ∀ r, m.isNew r → x.mentions r = false ∧ Object.anyValueMentions r xs = false := fun r hnew =>
      Bool.or_eq_false_iff.mp (h r hnew)
    .cons (.kept (becomes_self x fun r hnew => (hboth r hnew).1))
      (entriesBecome_self d xs fun r hnew => (hboth r hnew).2)

end

/-- The edit that puts a value under a new reference. -/
def moveTo (s : Store) (r : Ref) (value : Object) (mayMove : Dict → Name → Prop) : Indirection where
  before := s
  after := s.put r value
  isNew := (· = r)
  mayMove

theorem isEdit_moveTo {s : Store} {r : Ref} {mayMove : Dict → Name → Prop} (habsent : s.get? r = none)
    (hunused : ∀ q o, s.get? q = some o → o.mentions r = false) (value : Object) :
    (moveTo s r value mayMove).IsEdit := by
  refine ⟨fun _ hnew => hnew ▸ habsent, fun q hold => ?_, rfl⟩
  have hne : q ≠ r := hold
  have hget : (s.put r value).get? q = s.get? q := by rw [Store.get?_put, if_neg hne]
  show Option.Rel _ (s.get? q) ((s.put r value).get? q)
  rw [hget]
  cases hq : s.get? q with
  | none => exact .none
  | some o => exact .some (becomes_self o fun _ hnew => hnew ▸ hunused q o hq)

theorem follow?_of_ref?_eq_none (s : Store) (h : o.ref? = none) (steps : Nat) : s.follow? (steps + 1) o = some o := by
  cases o with
  | ref r => cases h
  | _ => rfl

theorem mentions_of_mem {r : Ref} {entries : List (Name × Object)} {x : Name × Object} (hx : x ∈ entries)
    (h : Object.anyValueMentions r entries = false) : x.2.mentions r = false := by
  induction entries with
  | nil => cases hx
  | cons y entries ih =>
    obtain ⟨hy, hrest⟩ := Bool.or_eq_false_iff.mp h
    rcases List.mem_cons.mp hx with rfl | hx
    · exact hy
    · exact ih hx hrest

instance (entries : List (Name × Object)) : Decidable (Dict.Increasing entries) :=
  inferInstanceAs (Decidable (entries.Pairwise _))

/-- A dictionary is edited if a reference takes the place of a value that is no reference. -/
theorem dictBecomes_insert {s : Store} {r : Ref} {value : Object} {mayMove : Dict → Name → Prop}
    (hd : Dict.Increasing d.entries) (hget : d.get? key = some value) (hmove : mayMove d key)
    (hdirect : value.ref? = none) (hunused : Object.anyValueMentions r d.entries = false) :
    (moveTo s r value mayMove).DictBecomes d (d.insert key (.ref r)) := by
  have hnone : value.mentions r = false := mentions_of_mem (Dict.mem_entries_of_get? hget) hunused
  have hheld : (moveTo s r value mayMove).Becomes value value := becomes_self value fun _ hnew => hnew ▸ hnone
  have hafter : (s.put r value).get? r = some value := by rw [Store.get?_put, if_pos rfl]
  have hsame : s.follow? (Store.maxChain - 1) value = s.resolve? value :=
    (follow?_of_ref?_eq_none s hdirect _).trans (follow?_of_ref?_eq_none s hdirect _).symm
  have hentries : ∀ entries, Dict.Increasing entries → Dict.findEntry key entries = some value →
      Object.anyValueMentions r entries = false →
      (moveTo s r value mayMove).EntriesBecome d entries (Dict.insertEntry key (.ref r) entries) := by
    intro entries
    induction entries with
    | nil => rintro - ⟨⟩
    | cons p entries ih =>
      intro hincreasing hfind hunused
      obtain ⟨k, x⟩ := p
      obtain ⟨hfirst, hrest⟩ := Dict.increasing_cons.mp hincreasing
      obtain ⟨hx, hothers⟩ := Bool.or_eq_false_iff.mp hunused
      rw [Dict.findEntry] at hfind
      rw [Dict.insertEntry]
      by_cases hkey : key = k
      · subst hkey
        rw [if_pos rfl] at hfind ⊢
        obtain rfl := Option.some.inj hfind
        exact .cons (.moved hmove rfl (fun _ hnew => hnew ▸ hx) hafter hheld hsame)
          (entriesBecome_self d entries fun _ hnew => hnew ▸ hothers)
      · have hlt : k < key := hfirst _ (Dict.mem_entries_of_get? (d := ⟨entries⟩) (by rwa [if_neg hkey] at hfind))
        have hnot : ¬ key < k := List.lt_asymm hlt
        rw [if_neg hkey] at hfind ⊢
        rw [if_neg hnot]
        exact .cons (.kept (becomes_self x fun _ hnew => hnew ▸ hx)) (ih hrest hfind hothers)
  exact hentries d.entries hd hget hunused

end Indirection

end Folio
