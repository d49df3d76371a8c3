import Folio.Draw.Replay
import Folio.Proofs.Draw.Moves

/-!
# What a replay shows

Commands that have an effect on others take effect wherever they stand. What is painted is shown where all
content that is open around it is visible. Main statement: `replay_calls`, the calls of a replay are those of
its commands one by one, of which the ones that paint are left out inside hidden content.

The stack of a replay holds for each open content whether all content up to it is visible
(`LayerStack.ofMemberships`).
-/

namespace Folio

/-! ## Visible content -/

/-- Whether content with a membership is visible where some groups are hidden. Content that belongs to no
group is visible under every policy. -/
def Membership.VisibleIn (v : Visibility) : Membership → Prop
  | .group target => target ∉ v.hidden
  | .groups targets .anyOn => targets = [] ∨ ∃ target ∈ targets, target ∉ v.hidden
  | .groups targets .allOn => ∀ target ∈ targets, target ∉ v.hidden
  | .groups targets .anyOff => targets = [] ∨ ∃ target ∈ targets, target ∈ v.hidden
  | .groups targets .allOff => ∀ target ∈ targets, target ∈ v.hidden

theorem Visibility.shows_iff (v : Visibility) (m : Membership) : v.shows m = true ↔ m.VisibleIn v := by
  cases m with
  | group target => simp [shows, showsGroup, Membership.VisibleIn]
  | groups targets policy =>
    cases policy <;> cases targets <;>
      simp [shows, showsGroup, VisibilityPolicy.admits, Membership.VisibleIn]

instance (v : Visibility) (m : Membership) : Decidable (m.VisibleIn v) :=
  decidable_of_iff _ (v.shows_iff m)

/-- The stack inside content with the given memberships, the innermost first. -/
def LayerStack.ofMemberships (v : Visibility) : List Membership → LayerStack
  | [] => {}
  | m :: layers => (ofMemberships v layers).push m v

/-- What is drawn is visible if all content around it is. -/
theorem LayerStack.isVisible_ofMemberships (v : Visibility) (layers : List Membership) :
    (ofMemberships v layers).isVisible = true ↔ ∀ m ∈ layers, m.VisibleIn v := by
  induction layers with
  | nil => simp [ofMemberships, isVisible]
  | cons m layers ih =>
    have hpush : (ofMemberships v (m :: layers)).isVisible =
        ((ofMemberships v layers).isVisible && v.shows m) := rfl
    rw [hpush, Bool.and_eq_true, ih, v.shows_iff, List.forall_mem_cons, and_comm]

/-! ## Commands one by one -/

/-- A list whose elements are taken with those before them, and one more element. -/
theorem filterMap_zipIdx_concat {α β : Type} (f : List α → α → Option β) (l : List α) (a : α) :
    ((l ++ [a]).zipIdx.filterMap fun (b, i) => f ((l ++ [a]).take i) b) =
      (l.zipIdx.filterMap fun (b, i) => f (l.take i) b) ++ (f l a).toList := by
  have hbefore : l.zipIdx.filterMap (fun (b, i) => f ((l ++ [a]).take i) b) =
      l.zipIdx.filterMap fun (b, i) => f (l.take i) b := by
    refine List.filterMap_congr fun ⟨b, i⟩ hmem => ?_
    have hlt : i < l.length := by simpa using List.snd_lt_of_mem_zipIdx hmem
    simp only [List.take_append_of_le_length hlt.le]
  have hlast : (l ++ [a]).take l.length = l := List.take_left
  rw [List.zipIdx_append, List.filterMap_append, hbefore, List.zipIdx_singleton, Nat.zero_add]
  cases hvalue : f l a <;> simp [hvalue, hlast]

namespace DrawCommand

/-- The memberships that are open after a command, the innermost first. -/
def enclose (layers : List Membership) : DrawCommand → List Membership
  | .pushLayer m => m :: layers
  | .popLayer => layers.tail
  | _ => layers

/-- The memberships that are open after some commands, the innermost first. -/
def openAfter (commands : List DrawCommand) : List Membership := commands.foldl enclose []

/-- What a command does on a canvas if it takes effect. An image that cannot be decoded does nothing, nor
does an opacity that is meant for the shape only. -/
def call? (config : ImageConfig) (g : Gallery) : DrawCommand → Option CanvasCall
  | .state c => some (.state c)
  | .alpha value forStroke paint => if paint then some (.alpha value forStroke) else none
  | .fill path rule => some (.fill path rule)
  | .stroke path => some (.stroke path)
  | .image number _ r color => (g.draw number color r config).1.map .image
  | .pushLayer _ | .popLayer => none

end DrawCommand

/-- Whether a call paints. -/
def CanvasCall.isPaint : CanvasCall → Bool
  | .fill _ _ | .stroke _ | .image _ => true
  | .state _ | .alpha _ _ => false

namespace DrawCommand

variable {v : Visibility} {config : ImageConfig} {g : Gallery} {commands : List DrawCommand}

theorem onLayers_ofMemberships (v : Visibility) (c : DrawCommand) (layers : List Membership) :
    c.onLayers v (.ofMemberships v layers) = .ofMemberships v (c.enclose layers) := by
  cases c with
  | popLayer => cases layers <;> rfl
  | _ => rfl

theorem onCanvas_eq (config : ImageConfig) (visible : Bool) (g : Gallery) (c : DrawCommand) :
    (c.onCanvas config visible g).1 =
      if c.paints = true → visible = true then (c.call? config g).toList else [] := by
  cases c with
  | alpha value forStroke paint => cases paint <;> rfl
  | fill | stroke => cases visible <;> rfl
  | image number s r color =>
    cases visible with
    | false => rfl
    | true =>
      simp only [onCanvas, call?, if_true, implies_true]
      cases (g.draw number color r config).1 <;> rfl
  | _ => rfl

theorem isPaint_of_call? {c : DrawCommand} {call : CanvasCall} (h : c.call? config g = some call) :
    call.isPaint = c.paints := by
  cases c with
  | alpha value forStroke paint =>
    cases paint with
    | false => cases h
    | true =>
      obtain rfl := Option.some.inj h
      rfl
  | image number s r color =>
    obtain ⟨raster, -, rfl⟩ := Option.map_eq_some_iff.mp h
    rfl
  | pushLayer | popLayer => cases h
  | _ =>
    obtain rfl := Option.some.inj h
    rfl

theorem replayFrom_append (layers : LayerStack) (g : Gallery) (first second : List DrawCommand) :
    replayFrom v config layers g (first ++ second) =
      let (calls, g) := replayFrom v config layers g first
      let (others, g) := replayFrom v config (first.foldl (fun layers c => c.onLayers v layers) layers) g second
      (calls ++ others, g) := by
  induction first generalizing layers g with
  | nil => rfl
  | cons c first ih =>
    simp only [List.cons_append, replayFrom, ih, List.foldl_cons, List.append_assoc]

theorem foldl_onLayers (v : Visibility) (layers : List Membership) (commands : List DrawCommand) :
    commands.foldl (fun layers c => c.onLayers v layers) (.ofMemberships v layers) =
      .ofMemberships v (commands.foldl enclose layers) := by
  induction commands generalizing layers with
  | nil => rfl
  | cons c commands ih => rw [List.foldl_cons, onLayers_ofMemberships, ih, List.foldl_cons]

/-- The last command is replayed after the others, inside the content that they leave open. -/
theorem replay_concat (commands : List DrawCommand) (c : DrawCommand) (v : Visibility)
    (config : ImageConfig) (g : Gallery) :
    (replay (commands ++ [c]) v config g).1 = (replay commands v config g).1 ++
      if c.paints = true → ∀ m ∈ openAfter commands, m.VisibleIn v then
        (c.call? config (replay commands v config g).2).toList
      else [] := by
  have hlayers := foldl_onLayers v [] commands
  rw [LayerStack.ofMemberships] at hlayers
  rw [replay, replayFrom_append, hlayers]
  simp only [replayFrom, List.append_nil, onCanvas_eq, LayerStack.isVisible_ofMemberships]
  rfl

theorem call?_congr {c : DrawCommand} (h : c.paints = false) (other : ImageConfig) (h' : Gallery) :
    c.call? config g = c.call? other h' := by
  cases c with
  | fill | stroke | image => cases h
  | _ => rfl

theorem filter_replay (commands : List DrawCommand) (v other : Visibility)
    (config otherConfig : ImageConfig) (g otherGallery : Gallery) :
    (replay commands v config g).1.filter (!·.isPaint) =
      (replay commands other otherConfig otherGallery).1.filter (!·.isPaint) := by
  induction commands using List.reverseRecOn with
  | nil => rfl
  | append_singleton commands c ih =>
    rw [replay_concat, replay_concat, List.filter_append, List.filter_append, ih]
    congr 1
    cases hpaints : c.paints with
    | false =>
      simp only [Bool.false_eq_true, false_implies, if_true]
      rw [call?_congr hpaints]
    | true =>
      have hnone (config : ImageConfig) (g : Gallery) :
          (c.call? config g).toList.filter (!·.isPaint) = [] := by
        rw [List.filter_eq_nil_iff]
        intro call hcall
        rw [isPaint_of_call? (Option.mem_toList.mp hcall), hpaints]
        decide
      split <;> split <;> simp only [hnone, List.filter_nil]

/-- The calls of a replay are those of its commands in order, each given the content that is open there and
the gallery that the commands before leave; a command that paints is left out unless all of this content is
visible. So all other calls are the same under every visibility. -/
theorem replay_calls (commands : List DrawCommand) (v : Visibility) (config : ImageConfig)
    (g : Gallery) :
    ((replay commands v config g).1 = commands.zipIdx.filterMap fun (c, i) =>
      if c.paints = true → ∀ m ∈ openAfter (commands.take i), m.VisibleIn v then
        c.call? config (replay (commands.take i) v config g).2
      else none) ∧
    ∀ other, (replay commands v config g).1.filter (!·.isPaint) =
      (replay commands other config g).1.filter (!·.isPaint) := by
  refine ⟨?_, fun other => filter_replay commands v other config config g g⟩
  induction commands using List.reverseRecOn with
  | nil => rfl
  | append_singleton commands c ih =>
    rw [filterMap_zipIdx_concat (fun before c =>
      if c.paints = true → ∀ m ∈ openAfter before, m.VisibleIn v then
        c.call? config (replay before v config g).2
      else none), replay_concat, ih]
    congr 1
    split <;> rfl

end DrawCommand

end Folio
