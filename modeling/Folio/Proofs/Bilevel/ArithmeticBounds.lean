import Folio.Proofs.Bilevel.ArithmeticRoundTrip

/-!
# The bounds of an arithmetic decoder

A decoder stays within its bounds on any data, however long it goes on after the end of it. To say that no
difference goes below zero, the decoder is given a second time, with contexts in numbers, and with differences
and table rows that may be missing. Main statement: `decodeAll?_start`, nothing is ever missing, the two
decoders do the same, and between two bits the registers are within their bounds.

The invariant of a run is `InBounds`. During the doublings the interval is too small for it, and what is left
is `WithinData`, which every single step keeps.
-/

namespace Folio.Bilevel

/-- The difference of two numbers, unless it is below zero. -/
def minus? {α : Type} [Sub α] [LE α] [DecidableLE α] (a b : α) : Option α :=
  if b ≤ a then some (a - b) else none

theorem minus?_eq_some {α : Type} [Sub α] [LE α] [DecidableLE α] {a b : α} (h : b ≤ a) :
    minus? a b = some (a - b) := if_pos h

/-! ## Contexts in numbers -/

/-- The estimate of a context in numbers: a row of the table of probabilities, and the more probable bit. -/
structure NumericContext where
  index : Nat
  likely : Nat
deriving DecidableEq

namespace NumericContext

/-- The more probable bit and the context after it. -/
def seeLikely? (cx : NumericContext) : Option (Nat × NumericContext) := do
  let row ← estimates[cx.index]?
  some (cx.likely, { cx with index := row.afterLikely })

/-- The less probable bit and the context after it. -/
def seeUnlikely? (cx : NumericContext) : Option (Nat × NumericContext) := do
  let row ← estimates[cx.index]?
  let bit ← minus? 1 cx.likely
  let likely ← if row.switches then minus? 1 cx.likely else some cx.likely
  some (bit, ⟨row.afterUnlikely, likely⟩)

end NumericContext

namespace BitContext

variable {cx : BitContext}

/-- The context in numbers. -/
def numeric (cx : BitContext) : NumericContext := ⟨cx.index, cx.likely.toNat⟩

theorem getElem?_estimates (h : cx.index < 47) : estimates[cx.numeric.index]? = some cx.estimate := by
  have hsize : estimates.size = 47 := by decide
  rw [estimate, Array.getD_eq_getD_getElem?]
  simp [numeric, hsize, h]

theorem minus?_likely (cx : BitContext) : minus? 1 cx.likely.toNat = some (!cx.likely).toNat := by
  cases cx.likely <;> rfl

theorem seeLikely?_numeric (h : cx.index < 47) :
    cx.numeric.seeLikely? = some (cx.likely.toNat, cx.seeLikely.numeric) := by
  rw [NumericContext.seeLikely?, getElem?_estimates h]
  rfl

theorem seeUnlikely?_numeric (h : cx.index < 47) :
    cx.numeric.seeUnlikely? = some ((!cx.likely).toNat, cx.seeUnlikely.numeric) := by
  have hminus : minus? 1 cx.numeric.likely = some (!cx.likely).toNat := minus?_likely cx
  rw [NumericContext.seeUnlikely?, getElem?_estimates h, hminus]
  simp only [Option.bind_eq_bind, Option.bind_some, seeUnlikely]
  cases cx.estimate.switches <;> simp [numeric]

end BitContext

namespace ArithmeticDecoder

/-! ## The decoder with differences that may be missing -/

/-- The decoder at the start of some data. -/
def start? (data : Bytes) : Option ArithmeticDecoder := do
  let d : ArithmeticDecoder := ⟨data.toArray, 0, 0, 0, 0⟩
  let d := { d with c := (d.byte 0 ^^^ 0xFF).toUInt32 <<< 16 }.takeByte
  let ct ← minus? d.ct 7
  some { d with c := d.c <<< 7, ct, a := 0x8000 }

/-- Doubles the interval. -/
def double? (d : ArithmeticDecoder) : Option ArithmeticDecoder := do
  let d := if d.ct = 0 then d.takeByte else d
  let ct ← minus? d.ct 1
  some { d with a := d.a <<< 1, c := d.c <<< 1, ct }

/-- Doubles the interval until it has at least half of its full size, for which it must not take more than `fuel`
times. -/
def renormalize? : Nat → ArithmeticDecoder → Option ArithmeticDecoder
  | 0, _ => none
  | fuel + 1, d => do
    let d ← d.double?
    if d.a &&& 0x8000 ≠ 0 then some d else renormalize? fuel d

/-- Whether the value lies in the part of the interval for the more probable bit, and the decoder for the part that
it lies in. -/
def select? (d : ArithmeticDecoder) (size : UInt32) : Option (Bool × ArithmeticDecoder) := do
  let rest ← minus? d.a size
  if d.c >>> 16 < rest then some (!(rest < size), { d with a := rest })
  else
    let c ← minus? d.c (rest <<< 16)
    some (rest < size, { d with a := size, c })

/-- The next bit in a context, the context after it, and the decoder after it. -/
def decode? (d : ArithmeticDecoder) (cx : NumericContext) :
    Option (Nat × NumericContext × ArithmeticDecoder) := do
  let row ← estimates[cx.index]?
  let rest ← minus? d.a row.size
  if d.c >>> 16 < rest ∧ rest &&& 0x8000 ≠ 0 then some (cx.likely, cx, { d with a := rest })
  else
    let (isLikely, d) ← d.select? row.size
    let (bit, cx) ← if isLikely then cx.seeLikely? else cx.seeUnlikely?
    let d ← d.renormalize? maxDoublings
    some (bit, cx, d)

section Runs

variable {κ : Type} [DecidableEq κ]

/-- The bits in a list of contexts, the contexts after them, and the decoder after them. -/
def decodeAll? (d : ArithmeticDecoder) :
    (κ → NumericContext) → List κ → Option (List Nat × (κ → NumericContext) × ArithmeticDecoder)
  | contexts, [] => some ([], contexts, d)
  | contexts, k :: rest => do
    let (bit, cx, d) ← d.decode? (contexts k)
    let (bits, contexts, d) ← decodeAll? d (Function.update contexts k cx) rest
    some (bit :: bits, contexts, d)

end Runs

/-! ## Taking bytes -/

variable {d : ArithmeticDecoder} {data : Bytes} {cx : BitContext}

/-- Whether the decoder is at a place in some data, with at most a byte taken ahead. -/
structure WithinData (d : ArithmeticDecoder) (data : Bytes) : Prop where
  data_eq : d.data = data.toArray
  position_le : d.position ≤ data.length
  ct_le : d.ct.toNat ≤ 8

theorem WithinData.lt_length (h : d.WithinData data) {offset : Nat} (hbyte : d.byte offset ≠ 0xFF) :
    d.position + offset < data.length := by
  by_contra hnot
  apply hbyte
  rw [byte, h.data_eq, Array.getD_eq_getD_getElem?, List.getElem?_toArray,
    List.getElem?_eq_none (not_lt.mp hnot)]
  rfl

/-- After the end of the data only markers come. -/
theorem WithinData.takeByte (h : d.WithinData data) :
    d.takeByte.WithinData data ∧ 7 ≤ d.takeByte.ct.toNat ∧ d.takeByte.a = d.a := by
  by_cases hlast : d.byte 0 = 0xFF
  · by_cases hnext : d.byte 1 > 0x8F
    · rw [takeByte_marker hlast hnext]
      exact ⟨⟨h.data_eq, h.position_le, Nat.le_refl 8⟩, Nat.le_succ 7, rfl⟩
    · have hlt : d.position + 1 < data.length := h.lt_length fun hff => hnext (hff ▸ by decide)
      rw [takeByte_seven hlast hnext]
      exact ⟨⟨h.data_eq, Nat.le_of_lt hlt, Nat.le_succ 7⟩, Nat.le_refl 7, rfl⟩
  · have hlt := h.lt_length hlast
    rw [takeByte_eight hlast]
    exact ⟨⟨h.data_eq, hlt, Nat.le_refl 8⟩, Nat.le_succ 7, rfl⟩

/-! ## Doubling -/

theorem toNat_sub_one {x : UInt32} (h : 0 < x.toNat) : (x - 1).toNat = x.toNat - 1 :=
  UInt32.toNat_sub_of_le _ _ (UInt32.le_iff_toNat_le.mpr h)

theorem WithinData.double?_eq (h : d.WithinData data) (ha : d.a.toNat < 0x8000) :
    d.double? = some d.double ∧ d.double.WithinData data ∧ d.double.a.toNat = d.a.toNat * 2 := by
  obtain ⟨e, he, hwithin, hct, hae⟩ : ∃ e, (if d.ct = 0 then d.takeByte else d) = e ∧ e.WithinData data ∧
      0 < e.ct.toNat ∧ e.a = d.a := by
    by_cases hzero : d.ct = 0
    · obtain ⟨hwithin, hct, hae⟩ := h.takeByte
      exact ⟨d.takeByte, if_pos hzero, hwithin, by omega, hae⟩
    · exact ⟨d, if_neg hzero, h, Nat.pos_of_ne_zero fun hct => hzero (UInt32.toNat_inj.mp hct), rfl⟩
  have hone : (1 : UInt32) ≤ e.ct := UInt32.le_iff_toNat_le.mpr hct
  have hsub := toNat_sub_one hct
  have hle := hwithin.ct_le
  rw [double?, double]
  simp only [he, minus?_eq_some hone]
  refine ⟨rfl, ⟨hwithin.data_eq, hwithin.position_le, by simp only [hsub]; omega⟩, ?_⟩
  rw [hae, toNat_shiftLeft_one (by omega)]

/-- The bounds of a decoder between two bits. -/
structure InBounds (d : ArithmeticDecoder) (data : Bytes) : Prop extends d.WithinData data where
  half_le : 0x8000 ≤ d.a.toNat
  a_lt : d.a.toNat < 0x10000

theorem WithinData.renormalize?_eq {fuel : Nat} (h : d.WithinData data) (ha : d.a.toNat < 0x8000)
    (hfuel : 0x8000 ≤ d.a.toNat * 2 ^ fuel) :
    d.renormalize? fuel = some (d.renormalize fuel) ∧ (d.renormalize fuel).InBounds data := by
  induction fuel generalizing d with
  | zero => omega
  | succ fuel ih =>
    obtain ⟨hsome, hwithin, hdouble⟩ := h.double?_eq ha
    rw [renormalize?, hsome, Option.bind_eq_bind, Option.bind_some, ArithmeticDecoder.renormalize]
    simp only [and_half_ne_zero (show d.double.a.toNat < 0x10000 by omega)]
    by_cases hhalf : 0x8000 ≤ d.double.a.toNat
    · rw [if_pos hhalf, if_pos hhalf]
      exact ⟨rfl, hwithin, hhalf, by omega⟩
    · rw [if_neg hhalf, if_neg hhalf]
      apply ih hwithin (by omega)
      rw [hdouble, Nat.mul_assoc, ← pow_succ']
      exact hfuel

/-! ## Decoding -/

theorem InBounds.select?_eq (h : d.InBounds data) {size : UInt32} (hpos : 0 < size.toNat)
    (hsize : size.toNat ≤ 0x5601) (hsmall : d.c >>> 16 < d.a - size → (d.a - size).toNat < 0x8000) :
    d.select? size = some (d.select size) ∧ (d.select size).2.WithinData data ∧
      0 < (d.select size).2.a.toNat ∧ (d.select size).2.a.toNat < 0x8000 := by
  have hhalf := h.half_le
  have hlt := h.a_lt
  have hle : size ≤ d.a := UInt32.le_iff_toNat_le.mpr (by omega)
  have hrest := UInt32.toNat_sub_of_le _ _ hle
  rw [select?, minus?_eq_some hle, Option.bind_eq_bind, Option.bind_some, ArithmeticDecoder.select]
  by_cases hupper : d.c >>> 16 < d.a - size
  · have hsmall := hsmall hupper
    simp only [if_pos hupper]
    exact ⟨trivial, ⟨h.data_eq, h.position_le, h.ct_le⟩, by omega, hsmall⟩
  · have hc : (d.a - size) <<< 16 ≤ d.c := by
      rw [UInt32.le_iff_toNat_le, toNat_shiftLeft_sixteen (by omega)]
      exact not_lt.mp (mt shiftRight_lt_iff.mpr hupper)
    simp only [if_neg hupper, minus?_eq_some hc]
    exact ⟨rfl, ⟨h.data_eq, h.position_le, h.ct_le⟩, hpos, by omega⟩

theorem InBounds.decode?_eq (h : d.InBounds data) (hcx : cx.index < 47) :
    d.decode? cx.numeric =
      some ((d.decode cx).1.toNat, (d.decode cx).2.1.numeric, (d.decode cx).2.2) ∧
    (d.decode cx).2.1.index < 47 ∧ (d.decode cx).2.2.InBounds data := by
  obtain ⟨hpos, hsize, hlikely, hunlikely⟩ := ArithmeticEncoder.estimate_spec hcx
  have hhalf := h.half_le
  have hlt := h.a_lt
  have hle : cx.estimate.size ≤ d.a := UInt32.le_iff_toNat_le.mpr (by omega)
  have hrest := UInt32.toNat_sub_of_le _ _ hle
  have hlarge := and_half_ne_zero (x := d.a - cx.estimate.size) (by omega)
  rw [decode?, BitContext.getElem?_estimates hcx, ArithmeticDecoder.decode]
  simp only [minus?_eq_some hle, Option.bind_eq_bind, Option.bind_some]
  by_cases hkeeps : d.c >>> 16 < d.a - cx.estimate.size ∧ d.a - cx.estimate.size &&& 0x8000 ≠ 0
  · rw [if_pos hkeeps, if_pos hkeeps]
    exact ⟨rfl, hcx, ⟨h.data_eq, h.position_le, h.ct_le⟩, hlarge.mp hkeeps.2, by dsimp only; omega⟩
  · have hsmall : d.c >>> 16 < d.a - cx.estimate.size → (d.a - cx.estimate.size).toNat < 0x8000 :=
      fun hupper => not_le.mp fun hle => hkeeps ⟨hupper, hlarge.mpr hle⟩
    obtain ⟨hselect, hwithin, ha, ha'⟩ := h.select?_eq hpos hsize hsmall
    have hfuel : 0x8000 ≤ (d.select cx.estimate.size).2.a.toNat * 2 ^ maxDoublings := by
      rw [maxDoublings]
      omega
    obtain ⟨hrenormalize, hbounds⟩ := hwithin.renormalize?_eq ha' hfuel
    rw [if_neg hkeeps, if_neg hkeeps, hselect]
    cases hpart : (d.select cx.estimate.size).1 with
    | true =>
      simp only [hpart, if_true, BitContext.seeLikely?_numeric hcx, hrenormalize, Option.bind_some]
      exact ⟨trivial, hlikely, hbounds⟩
    | false =>
      simp only [hpart, Bool.false_eq_true, if_false, BitContext.seeUnlikely?_numeric hcx, hrenormalize,
        Option.bind_some]
      exact ⟨trivial, hunlikely, hbounds⟩

/-- The second byte has at least the seven digits that are taken at once. -/
theorem start?_eq (data : Bytes) : start? data = some (start data) ∧ (start data).InBounds data := by
  have hempty : (firstTaken data (data.toArray.getD 0 0xFF)).WithinData data :=
    ⟨rfl, Nat.zero_le _, Nat.zero_le _⟩
  obtain ⟨hwithin, hct, -⟩ := hempty.takeByte
  generalize he : (firstTaken data (data.toArray.getD 0 0xFF)).takeByte = e at hwithin hct
  have hstart : start? data = (minus? e.ct 7 >>= fun ct => some { e with c := e.c <<< 7, ct, a := 0x8000 }) ∧
      start data = { e with c := e.c <<< 7, ct := e.ct - 7, a := 0x8000 } := by
    rw [← he]
    exact ⟨rfl, rfl⟩
  have hseven : 7 ≤ e.ct := UInt32.le_iff_toNat_le.mpr hct
  have hsub : (e.ct - 7).toNat = e.ct.toNat - 7 := UInt32.toNat_sub_of_le _ _ hseven
  have hle := hwithin.ct_le
  rw [hstart.1, hstart.2, minus?_eq_some hseven]
  refine ⟨rfl, ⟨hwithin.data_eq, hwithin.position_le, ?_⟩, Nat.le_refl 0x8000,
    (by decide : (0x8000 : UInt32).toNat < 0x10000)⟩
  dsimp only
  omega

/-! ## Runs -/

section Runs

variable {κ : Type} [DecidableEq κ]

/-- The contexts and the decoder after the bits in a list of contexts. -/
def after (d : ArithmeticDecoder) : (κ → BitContext) → List κ → (κ → BitContext) × ArithmeticDecoder
  | contexts, [] => (contexts, d)
  | contexts, k :: rest =>
    let (_, cx, d) := d.decode (contexts k)
    after d (Function.update contexts k cx) rest

theorem InBounds.decodeAll?_eq (h : d.InBounds data) {contexts : κ → BitContext}
    (hcontexts : ∀ k, (contexts k).index < 47) (keys : List κ) :
    d.decodeAll? (fun k => (contexts k).numeric) keys =
      some ((decodeAll d contexts keys).map Bool.toNat, fun k => ((d.after contexts keys).1 k).numeric,
        (d.after contexts keys).2) ∧
      (∀ k, ((d.after contexts keys).1 k).index < 47) ∧ (d.after contexts keys).2.InBounds data := by
  induction keys generalizing d contexts with
  | nil => exact ⟨rfl, hcontexts, h⟩
  | cons k keys ih =>
    obtain ⟨hdecode, hindex, hbounds⟩ := h.decode?_eq (hcontexts k)
    obtain ⟨hrest, hall⟩ := ih hbounds (ArithmeticEncoder.update_index_lt hcontexts hindex (k := k))
    have hupdate : (fun j => (Function.update contexts k (d.decode (contexts k)).2.1 j).numeric) =
        Function.update (fun j => (contexts j).numeric) k (d.decode (contexts k)).2.1.numeric :=
      Function.comp_update BitContext.numeric contexts k _
    rw [hupdate] at hrest
    rw [decodeAll?, hdecode]
    simp only [Option.bind_eq_bind, Option.bind_some, hrest]
    exact ⟨rfl, hall⟩

/-- On any data, for any number of bits in any contexts, no difference is below zero, no row of the table is
missing, and the registers are within their bounds. -/
theorem decodeAll?_start (data : Bytes) (keys : List κ) :
    let (contexts, d) := (start data).after (fun _ => {}) keys
    (start? data >>= fun d => d.decodeAll? (fun _ => ⟨0, 0⟩) keys) =
        some ((decodeAll (start data) (fun _ => {}) keys).map Bool.toNat, fun k => (contexts k).numeric, d) ∧
      (∀ k, (contexts k).numeric.index < 47 ∧ (contexts k).numeric.likely ≤ 1) ∧
      0x8000 ≤ d.a ∧ d.a ≤ 0xFFFF ∧ d.ct ≤ 8 ∧ d.position ≤ data.length := by
  obtain ⟨hstart, hbounds⟩ := start?_eq data
  have hdefault : ∀ k : κ, ((fun _ => {}) k : BitContext).index < 47 := fun _ => Nat.succ_pos 46
  obtain ⟨hrun, hindex, hwithin, hhalf, hlt⟩ := hbounds.decodeAll?_eq hdefault keys
  refine ⟨?_, fun k => ⟨hindex k, Nat.le_of_lt_succ (Bool.toNat_lt _)⟩, ?_, ?_, ?_, hwithin.position_le⟩
  · rw [hstart]
    exact hrun
  · exact UInt32.le_iff_toNat_le.mpr hhalf
  · exact UInt32.le_iff_toNat_le.mpr (Nat.le_of_lt_succ hlt)
  · exact UInt32.le_iff_toNat_le.mpr hwithin.ct_le

end Runs

end ArithmeticDecoder

end Folio.Bilevel
