import Folio.Layer.Visibility
import Folio.Proofs.Store.Indirection

/-!
# Memberships whose entries become references

A membership dictionary is edited so that some of its entries refer to indirect objects that hold their values.
Main statement: `Membership.ofObject?_eq_iff`. The policy says the same, but a reference in the place of the list
of groups is taken for a single group, which shows and hides other content than the groups of the list.
-/

namespace Folio

variable {m : Indirection} {o p : Object} {d e : Dict} {r : Ref}

/-- A group can be told from others by what is visible: all groups are, or all but this one. -/
theorem Visibility.exists_shows_ne {targets : List Ref} (h : r ∉ targets) (policy : VisibilityPolicy) :
    ∃ v : Visibility, v.shows (.groups [r] policy) ≠ v.shows (.groups targets policy) := by
  have hhidden : (⟨[r]⟩ : Visibility).showsGroup r = false := by simp [showsGroup]
  have hothers : targets.map (⟨[r]⟩ : Visibility).showsGroup = targets.map fun _ => true := by
    refine List.map_congr_left fun t ht => ?_
    have hne : t ≠ r := fun heq => h (heq ▸ ht)
    simp [showsGroup, hne]
  cases targets with
  | nil =>
    cases policy with
    | anyOn | allOn =>
      refine ⟨⟨[r]⟩, ?_⟩
      simp [shows, VisibilityPolicy.admits, hhidden]
    | anyOff | allOff =>
      refine ⟨all, ?_⟩
      simp [shows, VisibilityPolicy.admits, all, showsGroup]
  | cons t targets =>
    refine ⟨⟨[r]⟩, ?_⟩
    unfold shows
    dsimp only
    rw [hothers, List.map_singleton, hhidden]
    cases policy <;> simp [VisibilityPolicy.admits]

namespace Membership

theorem not_mem_references {items : List Object} (h : Object.anyMentions r items = false) : r ∉ references items := by
  induction items with
  | nil => exact List.not_mem_nil
  | cons x xs ih =>
    obtain ⟨hx, hxs⟩ := Bool.or_eq_false_iff.mp h
    rw [references, List.filterMap_cons]
    cases x with
    | ref t =>
      have hne : t ≠ r := by simpa [Object.mentions] using hx
      exact List.not_mem_cons_of_ne_of_not_mem hne.symm (ih hxs)
    | _ => exact ih hxs

/-- The groups of an entry are mentioned in its value, unless this is a reference to the list of them. -/
theorem not_mem_groupsOf {store : Store} {v : Object} (h : v.mentions r = false) : r ∉ groupsOf store (some v) := by
  cases v with
  | ref t =>
    have hne : t ≠ r := by simpa [Object.mentions] using h
    exact fun hmem => hne.symm (List.mem_singleton.mp hmem)
  | array items => exact not_mem_references h
  | _ => exact List.not_mem_nil

theorem groupsOf_eq_of_becomes (hm : m.IsEdit) (h : m.Becomes o p) :
    groupsOf m.after (some p) = groupsOf m.before (some o) := by
  have hitems : Option.Rel m.ItemsBecome (m.before.resolveAs? Object.array? o) (m.after.resolveAs? Object.array? p) :=
    optionRel_bind (Indirection.resolve?_becomes hm h) fun _ _ => Indirection.Becomes.array?_rel
  have hlisted : references ((m.after.resolveAs? Object.array? p).getD []) =
      references ((m.before.resolveAs? Object.array? o).getD []) := by
    rcases eq_none_or_some_of_optionRel hitems with ⟨hbefore, hafter⟩ | ⟨xs, ys, hbefore, hafter, hitems⟩
    · rw [hbefore, hafter]
    · rw [hbefore, hafter]
      exact Indirection.filterMap_eq Indirection.Becomes.ref?_eq hitems
  cases h with
  | ref _ => rfl
  | _ => exact hlisted

/-- The groups are the same unless their list has been moved; then its new reference is the only group. -/
theorem groupsOf_eq_or (hm : m.IsEdit) (h : m.DictBecomes d e) :
    (∀ r, e.get? "OCGs" = some (.ref r) → ¬ m.isNew r) ∧
        groupsOf m.after (e.get? "OCGs") = groupsOf m.before (d.get? "OCGs") ∨
      ∃ r, e.get? "OCGs" = some (.ref r) ∧ m.isNew r ∧ groupsOf m.after (e.get? "OCGs") = [r] ∧
        r ∉ groupsOf m.before (d.get? "OCGs") := by
  rcases eq_none_or_some_of_optionRel (h.get?_rel "OCGs") with ⟨hd, he⟩ | ⟨v, w, hd, he, hvalue⟩
  · refine .inl ⟨fun r hr => ?_, ?_⟩
    · rw [he] at hr
      cases hr
    · rw [hd, he]
      rfl
  · rw [hd, he]
    cases hvalue with
    | kept hvalue =>
      refine .inl ⟨fun r hr => ?_, groupsOf_eq_of_becomes hm hvalue⟩
      obtain rfl := Option.some.inj hr
      cases hvalue with
      | ref hold => exact hold
    | @moved _ _ _ held w r _ hnew hunused => exact .inr ⟨r, rfl, hnew, rfl, not_mem_groupsOf (hunused r hnew)⟩

theorem ofObject?_of_type {store : Store} (hd : store.resolveAs? Object.dict? o = some d)
    (htype : d.getAs? Object.name? "Type" = some "OCMD") :
    ofObject? store o = some (.groups (groupsOf store (d.get? "OCGs"))
      (((store.entry? Object.name? d "P").bind VisibilityPolicy.ofName?).getD .anyOn)) := by
  unfold ofObject?
  rw [hd, Option.bind_eq_bind, Option.bind_some, htype]
  rfl

/-- A membership dictionary that is edited states the same membership exactly if the list of its groups, if any,
has not been moved, and else one that differs in what is visible. -/
theorem ofObject?_eq_iff (hm : m.IsEdit) (hkeys : ∀ d key, m.mayMove d key → key = "OCGs" ∨ key = "P")
    (ho : m.Becomes o p) (hd : m.before.resolveAs? Object.dict? o = some d)
    (htype : d.getAs? Object.name? "Type" = some "OCMD") :
    ∃ e original edited, m.after.resolveAs? Object.dict? p = some e ∧ m.DictBecomes d e ∧
      ofObject? m.before o = some original ∧ ofObject? m.after p = some edited ∧
      (edited = original ↔ ∀ r, e.get? "OCGs" = some (.ref r) → ¬ m.isNew r) ∧
      ((∀ v : Visibility, v.shows edited = v.shows original) ↔
        ∀ r, e.get? "OCGs" = some (.ref r) → ¬ m.isNew r) := by
  have hread : Option.Rel m.DictBecomes (m.before.resolveAs? Object.dict? o) (m.after.resolveAs? Object.dict? p) :=
    optionRel_bind (Indirection.resolve?_becomes hm ho) fun _ _ => Indirection.Becomes.dict?_rel
  obtain ⟨e, he, hdict⟩ : ∃ e, m.after.resolveAs? Object.dict? p = some e ∧ m.DictBecomes d e := by
    rcases eq_none_or_some_of_optionRel hread with ⟨hnone, -⟩ | ⟨d', e, hd', he, hdict⟩
    · rw [hd] at hnone
      cases hnone
    · obtain rfl := Option.some.inj (hd.symm.trans hd')
      exact ⟨e, he, hdict⟩
  have hkept : e.getAs? Object.name? "Type" = some "OCMD" := by
    rw [← htype]
    refine hdict.getAs?_eq Indirection.Becomes.name?_eq fun hmove => ?_
    rcases hkeys d _ hmove with heq | heq <;> exact absurd heq (by decide)
  have hpolicy : m.after.entry? Object.name? e "P" = m.before.entry? Object.name? d "P" :=
    hdict.entry?_eq Indirection.Becomes.name?_eq hm "P"
  refine ⟨e, _, _, he, hdict, ofObject?_of_type hd htype, ofObject?_of_type he hkept, ?_⟩
  rw [hpolicy]
  rcases groupsOf_eq_or hm hdict with ⟨hold, hgroups⟩ | ⟨r, hr, hnew, hgroups, hnone⟩
  · rw [hgroups]
    exact ⟨iff_of_true rfl hold, iff_of_true (fun _ => rfl) hold⟩
  · have hmoved : ¬ ∀ r, e.get? "OCGs" = some (.ref r) → ¬ m.isNew r := fun hold => hold r hr hnew
    rw [hgroups]
    obtain ⟨v, hv⟩ := Visibility.exists_shows_ne hnone
      (((m.before.entry? Object.name? d "P").bind VisibilityPolicy.ofName?).getD .anyOn)
    exact ⟨iff_of_false (fun heq => hv (congrArg v.shows heq)) hmoved, iff_of_false (fun hall => hv (hall v)) hmoved⟩

/-- A membership in a group that is the only one of its list. -/
def listedGroup : Dict :=
  .ofList [("OCGs", .array [.ref ⟨1, 0⟩]), ("P", .name "AllOff"), ("Type", .name "OCMD")]

/-- The edit that puts a value of the dictionary under a new reference. -/
def moveListed (value : Object) : Indirection :=
  .moveTo .empty ⟨5, 0⟩ value fun d key => key = "P" ∨ key = "OCGs" ∧ ∃ items, d.get? "OCGs" = some (.array items)

theorem isEdit_moveListed (value : Object) : (moveListed value).IsEdit :=
  Indirection.isEdit_moveTo rfl (fun _ _ h => by cases h) value

theorem becomes_moveListed (key : Name) {value : Object} (hget : listedGroup.get? key = some value)
    (hkey : key = "P" ∨ key = "OCGs") (hdirect : value.ref? = none) :
    (moveListed value).Becomes (.dict listedGroup) (.dict (listedGroup.insert key (.ref ⟨5, 0⟩))) := by
  refine .dict (Indirection.dictBecomes_insert (by decide) hget ?_ hdirect rfl)
  exact hkey.imp_right fun heq => ⟨heq, _, rfl⟩

/-- The policy may be moved, and the list may not. -/
theorem ofObject?_eq_iff_listedGroup :
    ofObject? (moveListed (.name "AllOff")).after (.dict (listedGroup.insert "P" (.ref ⟨5, 0⟩))) =
        ofObject? .empty (.dict listedGroup) ∧
      ofObject? (moveListed (.array [.ref ⟨1, 0⟩])).after (.dict (listedGroup.insert "OCGs" (.ref ⟨5, 0⟩))) ≠
        ofObject? .empty (.dict listedGroup) := by
  have hkeys (value : Object) : ∀ d key, (moveListed value).mayMove d key → key = "OCGs" ∨ key = "P" :=
    fun _ _ hmove => (hmove.imp_right And.left).symm
  constructor
  · have hbecomes := becomes_moveListed "P" rfl (.inl rfl) rfl
    obtain ⟨e, original, edited, he, -, hbefore, hafter, hsame, -⟩ :=
      ofObject?_eq_iff (isEdit_moveListed _) (hkeys _) hbecomes rfl rfl
    obtain rfl := Option.some.inj he
    rw [hafter]
    refine (congrArg some (hsame.mpr fun r hr => ?_)).trans hbefore.symm
    cases hr
  · have hbecomes := becomes_moveListed "OCGs" rfl (.inr rfl) rfl
    obtain ⟨e, original, edited, he, -, hbefore, hafter, hsame, -⟩ :=
      ofObject?_eq_iff (isEdit_moveListed _) (hkeys _) hbecomes rfl rfl
    obtain rfl := Option.some.inj he
    intro heq
    have hequal : edited = original := Option.some.inj (hafter.symm.trans (heq.trans hbefore))
    exact hsame.mp hequal ⟨5, 0⟩ rfl rfl

/-- Moved, the list becomes a group of its own. -/
theorem not_forall_ofObject?_eq :
    ¬ ∀ (m : Indirection) (o p : Object) (d : Dict), m.IsEdit →
      (∀ d key, m.mayMove d key →
        key = "P" ∨ key = "OCGs" ∧ ∃ items, d.get? "OCGs" = some (.array items)) →
      m.Becomes o p → m.before.resolveAs? Object.dict? o = some d →
      d.getAs? Object.name? "Type" = some "OCMD" → ofObject? m.after p = ofObject? m.before o := by
  intro hall
  have hsame := hall (moveListed (.array [.ref ⟨1, 0⟩])) _ _ listedGroup (isEdit_moveListed _) (fun _ _ => id)
    (becomes_moveListed "OCGs" rfl (.inr rfl) rfl) rfl rfl
  have hbefore : ofObject? .empty (.dict listedGroup) = some (.groups [⟨1, 0⟩] .allOff) := rfl
  have hafter : ofObject? (moveListed (.array [.ref ⟨1, 0⟩])).after
      (.dict (listedGroup.insert "OCGs" (.ref ⟨5, 0⟩))) = some (.groups [⟨5, 0⟩] .allOff) := rfl
  rw [hafter] at hsame
  exact absurd (hsame.trans hbefore) (by decide)

end Membership

end Folio
