import Folio.Proofs.Bilevel.RegionRoundTrip

/-!
# The contexts of marks

The standard fixes the context of each template in which the marks of typical prediction are coded. The
decoder has two of the four. With the others a bitmap may still be decoded: what a context is called
does not matter, so the marks can have either one as long as no pixel shares it with them.

Main statement: the templates with which all bitmaps are decoded that follow the standard.
-/

namespace Folio.Bilevel

/-- The context in which the standard codes the marks of typical prediction. -/
def standardMarkContext : Nat → Nat
  | 0 => 0x9B25
  | 1 => 0x0795
  | 2 => 0x00E5
  | _ => 0x0195

/-- The adaptive pixels of a template where the standard shows them. -/
def nominalPixels : Nat → List (Int × Int)
  | 0 => [(3, -1), (-3, -1), (2, -2), (-2, -2)]
  | 1 => [(3, -1)]
  | _ => [(2, -1)]

/-- The contexts of bits may be called by other names. -/
theorem encodeAll_map {ι κ : Type} [DecidableEq ι] [DecidableEq κ] {name : ι → κ}
    (hname : name.Injective) (e : ArithmeticEncoder) (contexts : κ → BitContext)
    (decisions : List (ι × Bool)) :
    encodeAll e contexts (decisions.map (Prod.map name id)) =
      encodeAll e (contexts ∘ name) decisions := by
  induction decisions generalizing e contexts with
  | nil => rfl
  | cons decision decisions ih =>
    obtain ⟨k, bit⟩ := decision
    rw [List.map_cons, Prod.map_apply, id_eq, encodeAll, encodeAll]
    dsimp only [Function.comp_apply]
    rw [ih, Function.update_comp_eq_of_injective _ hname]

namespace Region

variable {r : Region} {b : Bitmap}

/-- Whether no pixel of a bitmap has a context. -/
def Avoids (r : Region) (b : Bitmap) (k : Nat) : Prop :=
  ∀ y < b.height, ∀ x < b.width, context b r.offsets x y ≠ k

/-- The marks may be coded in either of two contexts that no pixel has. -/
theorem encode_congr {k k' : Nat} (hk : r.Avoids b k) (hk' : r.Avoids b k') (marked : Nat → Bool) :
    r.encode k marked b = r.encode k' marked b := by
  -- each context takes the name of the other one, which no pixel notices
  have hpixel : ∀ y < b.height, ∀ x < b.width,
      Prod.map (Equiv.swap k k') id (r.pixelDecision b y x) = r.pixelDecision b y x := by
    intro y hy x hx
    rw [pixelDecision, Prod.map_apply, Equiv.swap_apply_of_ne_of_ne (hk y hy x hx) (hk' y hy x hx),
      id_eq]
  have hrow : ∀ y < b.height,
      (r.rowDecisions k marked b y).map (Prod.map (Equiv.swap k k') id) =
        r.rowDecisions k' marked b y := by
    intro y hy
    have hpixels : ((List.range b.width).map (r.pixelDecision b y)).map
        (Prod.map (Equiv.swap k k') id) = (List.range b.width).map (r.pixelDecision b y) := by
      rw [List.map_map]
      exact List.map_congr_left fun x hx => hpixel y hy x (List.mem_range.mp hx)
    unfold rowDecisions
    dsimp only
    split
    · split
      · rw [List.map_cons, Prod.map_apply, Equiv.swap_apply_left]
        rfl
      · rw [List.map_cons, Prod.map_apply, Equiv.swap_apply_left, hpixels]
        rfl
    · exact hpixels
  have hdecisions : (r.decisions k marked b).map (Prod.map (Equiv.swap k k') id) =
      r.decisions k' marked b := by
    rw [decisions, List.map_flatMap]
    exact List.flatMap_congr fun y hy => hrow y (List.mem_range.mp hy)
  rw [encode, encode, ← hdecisions, encodeAll_map (Equiv.injective _)]
  rfl

/-- A bitmap that follows the standard is decoded if the decoder has the context of the marks, or if no
pixel shares the context that the standard or the decoder has for them. -/
theorem decode_of_standardMarks {marked : Nat → Bool} (hfits : r.Fits b) (hwidth : 0 < b.width)
    (hheight : 0 < b.height) (hrepeats : ∀ y < b.height, marked y = true → b.repeatsRow y = true)
    (hmarks : standardMarkContext r.template = typicalContext r.template ∨
      r.Avoids b (standardMarkContext r.template) ∧ r.Avoids b (typicalContext r.template))
    (hdata : r.data = r.encode (standardMarkContext r.template) marked b) :
    r.decode = .ok { b with background := false } := by
  refine decode_encode hfits hwidth hheight hrepeats ?_
  rcases hmarks with hsame | ⟨hstandard, htypical⟩
  · rw [hdata, hsame]
  · rw [hdata, encode_congr hstandard htypical]

/-- Whether all bitmaps are decoded that the standard codes with a template, marking all rows that equal
the one before them. -/
def DecodesStandard (number : Nat) : Prop :=
  ∀ (r : Region) (b : Bitmap), r.Fits b → 0 < b.width → 0 < b.height → r.template = number →
    r.typicalPrediction = true → r.adaptivePixels = nominalPixels number →
    r.data = r.encode (standardMarkContext number) b.repeatsRow b →
    (parse r.code false >>= decode) = .ok { b with background := false }

/-- A region that the standard codes for a bitmap. -/
def ofStandard (number : Nat) (b : Bitmap) : Region :=
  let r : Region := ⟨⟨b.width, b.height, 0, 0, .or⟩, false, number, true, nominalPixels number, []⟩
  { r with data := r.encode (standardMarkContext number) b.repeatsRow b }

theorem fits_ofStandard {number : Nat} (hnumber : number < 4) (hwidth : 0 < b.width)
    (hheight : 0 < b.height) (hpixels : b.pixels.size = b.width * b.height)
    (hsize : b.width * b.height ≤ maxPixels) : (ofStandard number b).Fits b := by
  have hmax : maxPixels < 256 ^ 4 := by decide
  have hwidth_le : b.width ≤ b.width * b.height := Nat.le_mul_of_pos_right _ hheight
  have hheight_le : b.height ≤ b.width * b.height := Nat.le_mul_of_pos_left _ hwidth
  have hnominal : (nominalPixels number).length = adaptiveCount number ∧
      ∀ distance ∈ nominalPixels number, Precedes distance := by
    interval_cases number <;> decide
  refine ⟨⟨?_, ?_, Nat.pow_pos (by decide), Nat.pow_pos (by decide), hsize, rfl, hnumber, hnominal.1, hnominal.2⟩, rfl, rfl, hpixels⟩
  · exact (hwidth_le.trans hsize).trans_lt hmax
  · exact (hheight_le.trans hsize).trans_lt hmax

theorem DecodesStandard.ofStandard {number : Nat} (h : DecodesStandard number) (hnumber : number < 4)
    (hwidth : 0 < b.width) (hheight : 0 < b.height) (hpixels : b.pixels.size = b.width * b.height)
    (hsize : b.width * b.height ≤ maxPixels) :
    (parse (ofStandard number b).code false >>= decode) = .ok { b with background := false } :=
  h _ b (fits_ofStandard hnumber hwidth hheight hpixels hsize) hwidth hheight rfl rfl rfl rfl

/-- A template whose marks have the context of the standard decodes all bitmaps that follow it. -/
theorem decodesStandard_of_eq {number : Nat} (h : standardMarkContext number = typicalContext number) :
    DecodesStandard number := by
  intro r b hfits hwidth hheight htemplate _ _ hdata
  subst htemplate
  have hparse : parse r.code false = .ok r := parse_code hfits.valid false
  rw [hparse]
  exact decode_of_standardMarks hfits hwidth hheight (fun _ _ hrepeats => hrepeats) (.inl h) hdata

/-- A template does not decode a bitmap if the data is that of another one in the contexts of the
decoder. -/
theorem not_decodesStandard {number : Nat} {pixels : Array Bool} (hnumber : number < 4)
    (hwidth : 0 < b.width) (hheight : 0 < b.height) (hpixels : b.pixels.size = b.width * b.height)
    (hsize : b.width * b.height ≤ maxPixels) (hother : pixels.size = b.width * b.height)
    (hne : pixels ≠ b.pixels)
    (hdata : (ofStandard number b).data = (ofStandard number b).encode (typicalContext number)
      { b with pixels }.repeatsRow { b with pixels }) :
    ¬ DecodesStandard number := by
  intro h
  have hfits := fits_ofStandard hnumber hwidth hheight hpixels hsize
  have hdecoded := h.ofStandard hnumber hwidth hheight hpixels hsize
  have hparse : parse (ofStandard number b).code false = .ok (ofStandard number b) :=
    parse_code hfits.valid false
  have hdecoded' : (ofStandard number b).decode = .ok { b with pixels, background := false } :=
    @decode_encode _ { b with pixels } _ ⟨hfits.valid, rfl, rfl, hother⟩ hwidth hheight
      (fun _ _ hrepeats => hrepeats) hdata
  rw [hparse] at hdecoded
  change (ofStandard number b).decode = _ at hdecoded
  rw [hdecoded'] at hdecoded
  exact hne (congrArg Bitmap.pixels (Except.ok.inj hdecoded))

theorem not_decodesStandard_one : ¬ DecodesStandard 1 := by
  let b : Bitmap := ⟨6, 3, #[true, false, false, false, true, true, false, true, true, false, false,
    true, true, false, true, false, false, false], false⟩
  refine @not_decodesStandard b 1 #[true, false, false, false, true, true, false, true, true, false,
    false, true, true, false, true, true, false, false] (by decide) (by decide) (by decide) rfl
    (by decide) rfl (by decide) ?_
  decide +kernel

theorem not_decodesStandard_two : ¬ DecodesStandard 2 := by
  let b : Bitmap := ⟨4, 3, #[true, true, true, false, false, true, false, true, true, true, false, false],
    false⟩
  refine @not_decodesStandard b 2 #[true, true, true, false, false, true, false, true, true, false, false,
    false] (by decide) (by decide) (by decide) rfl (by decide) rfl (by decide) ?_
  decide +kernel

/-- All bitmaps that follow the standard are decoded with the first template and the last one, and with no
other. -/
theorem decodesStandard_iff {number : Nat} (h : number < 4) :
    DecodesStandard number ↔ number = 0 ∨ number = 3 := by
  interval_cases number
  · exact iff_of_true (decodesStandard_of_eq rfl) (.inl rfl)
  · exact iff_of_false not_decodesStandard_one (by decide)
  · exact iff_of_false not_decodesStandard_two (by decide)
  · exact iff_of_true (decodesStandard_of_eq rfl) (.inr rfl)

/-- Three rows in the first template, the second of which is marked. -/
theorem decodesStandard_iff_bars :
    let bars : Bitmap :=
      ⟨4, 3, #[true, true, false, true, true, true, false, true, false, true, true, false], false⟩
    (parse [0, 0, 0, 4, 0, 0, 0, 3, 0, 0, 0, 0, 0, 0, 0, 0, 0, 8, 3, 255, 253, 255, 2, 254, 254,
      254, 22, 79, 255, 172] false >>= decode) = .ok bars := by
  intro bars
  have hcode : (ofStandard 0 bars).code = [0, 0, 0, 4, 0, 0, 0, 3, 0, 0, 0, 0, 0, 0, 0, 0, 0, 8,
      3, 255, 253, 255, 2, 254, 254, 254, 22, 79, 255, 172] := by
    decide +kernel
  rw [← hcode]
  have hdecodes : DecodesStandard 0 := (decodesStandard_iff (by decide)).mpr (.inl rfl)
  exact hdecodes.ofStandard (by decide) (by decide) (by decide) rfl (by decide)

theorem not_forall_decodesStandard : ¬ ∀ number < 4, DecodesStandard number := by
  intro h
  exact not_decodesStandard_two (h 2 (by decide))

end Region

end Folio.Bilevel
