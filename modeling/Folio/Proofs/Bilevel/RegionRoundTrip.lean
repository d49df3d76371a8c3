import Folio.Proofs.Bilevel.ArithmeticRoundTrip
import Folio.Proofs.Bilevel.Bitmap
import Folio.Proofs.Bilevel.RegionEncoder

/-!
# Decoding encoded regions

The decoder knows only the pixels before the current one. All pixels of a template come before it, so
the decoder finds the same context in its part of the bitmap as the encoder does in the whole one, and
then reads the same bit.

Main statement: the bitmap of a region is decoded from its segment, for all templates, all adaptive
pixels that come before the current one, and all choices of marked rows.
-/

namespace Folio.Bilevel

/-! ## The pixels before a pixel -/

namespace Bitmap

variable {b : Bitmap}

/-- The bitmap as it is known after some of its pixels. -/
def upTo (b : Bitmap) (count : Nat) : Bitmap :=
  { b with pixels := (b.pixels.toList.take count).toArray, background := false }

theorem upTo_size (hpixels : b.pixels.size = b.width * b.height) :
    b.upTo (b.width * b.height) = { b with background := false } := by
  have hall : b.pixels.toList.take (b.width * b.height) = b.pixels.toList :=
    List.take_of_length_le (by rw [Array.length_toList, hpixels])
  rw [upTo, hall]

theorem push_upTo {x y : Nat} (hpixels : b.pixels.size = b.width * b.height) (hx : x < b.width)
    (hy : y < b.height) :
    (b.upTo (y * b.width + x)).push (b.get x y) = b.upTo (y * b.width + x + 1) := by
  have hlt : y * b.width + x < b.pixels.toList.length := by
    rw [Array.length_toList, hpixels]
    exact index_lt hx hy
  have hget : b.get x y = b.pixels.toList[y * b.width + x] := by
    rw [get_natCast hx hy, Array.getD_eq_getD_getElem?, ← Array.getElem?_toList,
      List.getElem?_eq_getElem hlt, Option.getD_some]
  unfold push upTo
  rw [hget, List.push_toArray, List.take_append_getElem hlt]

/-- The index of a pixel that comes before another one. -/
theorem index_lt_of_before {width x y : Nat} {dx dy : Int}
    (hbefore : dy < 0 ∨ dy = 0 ∧ dx < 0) (hx : 0 ≤ x + dx) (hy : 0 ≤ y + dy)
    (hwidth : x + dx < width) : (y + dy).toNat * width + (x + dx).toNat < y * width + x := by
  rcases hbefore with habove | ⟨rfl, hleft⟩
  · -- the row above ends before the row begins
    have hrow : ((y + dy).toNat + 1) * width ≤ y * width :=
      Nat.mul_le_mul_right width (by omega)
    rw [Nat.succ_mul] at hrow
    omega
  · have hrow : ((y : Int) + 0).toNat = y := by omega
    rw [hrow]
    omega

/-- A pixel that comes before another one is known with it. -/
theorem get_upTo {x y : Nat} {dx dy : Int} (hbefore : dy < 0 ∨ dy = 0 ∧ dx < 0) :
    (b.upTo (y * b.width + x)).get (x + dx) (y + dy) = b.get (x + dx) (y + dy) := by
  unfold get upTo
  dsimp only
  split
  · rename_i hinside
    have hlt := index_lt_of_before hbefore hinside.1 hinside.2.1 hinside.2.2.1
    simp only [Array.getD_eq_getD_getElem?, List.getElem?_toArray, List.getElem?_take_of_lt hlt,
      Array.getElem?_toList]
  · rfl

theorem get_above_upTo (b : Bitmap) (x y : Nat) :
    (b.upTo (y * b.width + x)).get x ((y : Int) - 1) = b.get x ((y : Int) - 1) := by
  have habove := @get_upTo b x y 0 (-1) (.inl (by decide))
  rw [Int.add_zero] at habove
  exact habove

theorem get_of_repeatsRow {x y : Nat} (h : b.repeatsRow y = true) (hx : x < b.width) :
    b.get x y = b.get x ((y : Int) - 1) := by
  rw [repeatsRow, List.all_eq_true] at h
  exact beq_iff_eq.mp (h x (List.mem_range.mpr hx))

end Bitmap

/-! ## Templates -/

/-- Whether a pixel of a template comes before the pixel being decoded, as the adaptive ones do. -/
def TemplatePixel.isBefore (adaptiveCount : Nat) : TemplatePixel → Bool
  | fixed x y => y < 0 || (y == 0 && x < 0)
  | adaptive index => index < adaptiveCount

theorem all_isBefore {number : Nat} (h : number < 4) :
    (template number).all (TemplatePixel.isBefore (adaptiveCount number)) = true := by
  interval_cases number <;> rfl

/-- The marks of typical prediction have a context of their template. -/
theorem typicalContext_lt : ∀ number, typicalContext number < 2 ^ (template number).length
  | 0 => by decide
  | 1 => by decide
  | 2 => by decide
  | _ + 3 => by simp [typicalContext, template]

namespace Region

variable {r : Region} {b : Bitmap} {s : Progress} {offsets : List (Int × Int)}

/-! ## Contexts -/

/-- Whether all pixels of a template come before the pixel being decoded. -/
def AllBefore (offsets : List (Int × Int)) : Prop :=
  ∀ offset ∈ offsets, offset.2 < 0 ∨ offset.2 = 0 ∧ offset.1 < 0

/-- A context is the same in the part of the bitmap that is known. -/
theorem context_upTo (h : AllBefore offsets) (x y : Nat) :
    context (b.upTo (y * b.width + x)) offsets x y = context b offsets x y := by
  unfold context
  apply List.foldl_ext
  intro cx offset hoffset
  dsimp only
  rw [Bitmap.get_upTo (h offset hoffset)]

theorem context_append_singleton (offset : Int × Int) (x y : Nat) :
    context b (offsets ++ [offset]) x y =
      context b offsets x y * 2 + (b.get (x + offset.1) (y + offset.2)).toNat := by
  simp [context, List.foldl_append]

theorem context_lt (b : Bitmap) (offsets : List (Int × Int)) (x y : Nat) :
    context b offsets x y < 2 ^ offsets.length := by
  induction offsets using List.reverseRecOn with
  | nil => exact Nat.one_pos
  | append_singleton offsets offset ih =>
    have hbit := (b.get (x + offset.1) (y + offset.2)).toNat_lt
    rw [context_append_singleton, List.length_append, List.length_singleton, pow_succ]
    omega

theorem Valid.allBefore_offsets (h : r.Valid) : AllBefore r.offsets := by
  intro offset hoffset
  obtain ⟨pixel, hpixel, rfl⟩ := List.mem_map.mp hoffset
  have hbefore := List.all_eq_true.mp (all_isBefore h.template_lt) pixel hpixel
  cases pixel with
  | fixed x y =>
    simpa [TemplatePixel.isBefore] using hbefore
  | adaptive index =>
    -- the pixel is one that the region has, not the one that is taken in its place
    have hindex : index < r.adaptivePixels.length := by
      rw [h.length_adaptivePixels]
      simpa [TemplatePixel.isBefore] using hbefore
    dsimp only
    rw [List.getD_eq_getElem _ _ hindex]
    exact (h.precedes _ (List.getElem_mem hindex)).2.2

theorem typicalContext_lt_offsets (r : Region) :
    typicalContext r.template < 2 ^ r.offsets.length := by
  rw [offsets, List.length_map]
  exact typicalContext_lt r.template

/-! ## Reading bits -/

/-- Whether the bits of some decisions are read in their contexts. -/
def Progress.Reads (s : Progress) (decisions : List (Nat × Bool)) : Prop :=
  decodeAll s.decoder (fun k => s.contexts.getD k {}) (decisions.map Prod.fst) =
    decisions.map Prod.snd

/-- The bits that were encoded are read from the start of the data. -/
theorem Progress.reads_start (decisions : List (Nat × Bool)) (bitmap : Bitmap) (size : Nat) :
    Progress.Reads ⟨bitmap, .start (encodeAll .start (fun _ => {}) decisions).finish,
      Array.replicate size {}, false⟩ decisions := by
  have hindex : ∀ k : Nat, ((fun _ => {} : Nat → BitContext) k).index < 47 :=
    fun _ => Nat.succ_pos _
  have hleads := ArithmeticEncoder.leads_flushed
    (@ArithmeticEncoder.Ready.encodeAll _ _ _ _ decisions ArithmeticEncoder.ready_start hindex)
  obtain ⟨w, v, hstart⟩ := follows_start []
    (hleads.of_encodeAll ArithmeticEncoder.ready_start hindex) three_le_length_flushed
  have hcontexts : (fun k => (Array.replicate size ({} : BitContext)).getD k {}) = fun _ => {} := by
    funext k
    rw [Array.getD_eq_getD_getElem?, Array.getElem?_replicate]
    split
    · rfl
    · rfl
  rw [← finish_append three_le_length_flushed, List.append_nil] at hstart
  rw [Reads, hcontexts]
  exact hstart.decodeAll ArithmeticEncoder.ready_start hindex hleads

theorem getD_setIfInBounds {contexts : Array BitContext} {k : Nat} (hk : k < contexts.size)
    (cx : BitContext) :
    (fun j => (contexts.setIfInBounds k cx).getD j {}) =
      Function.update (fun j => contexts.getD j {}) k cx := by
  funext j
  by_cases hj : j = k
  · subst hj
    rw [Function.update_self, Array.getD_eq_getD_getElem?, Array.getElem?_setIfInBounds_self_of_lt hk,
      Option.getD_some]
  · rw [Function.update_of_ne hj, Array.getD_eq_getD_getElem?, Array.getD_eq_getD_getElem?,
      Array.getElem?_setIfInBounds_ne (Ne.symm hj)]

theorem Progress.Reads.bit {k : Nat} {bit : Bool} {decisions : List (Nat × Bool)}
    (h : s.Reads ((k, bit) :: decisions)) (hk : k < s.contexts.size) :
    (s.bit k).1 = bit ∧ (s.bit k).2.Reads decisions := by
  rw [Reads, List.map_cons, List.map_cons, decodeAll] at h
  unfold Progress.bit
  generalize s.decoder.decode (s.contexts.getD k {}) = next at h ⊢
  obtain ⟨bit', cx, decoder⟩ := next
  obtain ⟨hbit, hrest⟩ := List.cons.inj h
  refine ⟨hbit, ?_⟩
  rw [Reads, getD_setIfInBounds hk]
  exact hrest

/-! ## Decoding pixels -/

/-- A decoder that has the first pixels of a bitmap and goes on to read some decisions. -/
structure Progress.IsAt (s : Progress) (b : Bitmap) (count size : Nat) (typical : Bool)
    (decisions : List (Nat × Bool)) : Prop where
  bitmap_eq : s.bitmap = b.upTo count
  size_eq : s.contexts.size = size
  typical_eq : s.typical = typical
  reads : s.Reads decisions

variable {count size : Nat} {typical : Bool} {decisions : List (Nat × Bool)}

theorem Progress.IsAt.bit {k : Nat} {bit : Bool}
    (h : s.IsAt b count size typical ((k, bit) :: decisions)) (hk : k < size) :
    (s.bit k).1 = bit ∧ (s.bit k).2.IsAt b count size typical decisions := by
  obtain ⟨hbit, hreads⟩ := h.reads.bit (h.size_eq.symm ▸ hk)
  exact ⟨hbit, h.bitmap_eq, Array.size_setIfInBounds.trans h.size_eq, h.typical_eq, hreads⟩

/-- A region in arithmetic coding whose size is that of a bitmap. -/
structure Fits (r : Region) (b : Bitmap) : Prop where
  valid : r.Valid
  width_eq : r.info.width = b.width
  height_eq : r.info.height = b.height
  size_pixels : b.pixels.size = b.width * b.height

/-- A pixel is decoded in the context in which it was encoded. -/
theorem Progress.IsAt.pixel {x y : Nat} (hfits : r.Fits b) (hx : x < b.width) (hy : y < b.height)
    (h : s.IsAt b (y * b.width + x) (2 ^ r.offsets.length) typical
      (r.pixelDecision b y x :: decisions)) :
    (Progress.pixel r.offsets y s x).IsAt b (y * b.width + x + 1) (2 ^ r.offsets.length) typical
      decisions := by
  obtain ⟨hbit, hnext⟩ := h.bit (context_lt b r.offsets x y)
  unfold Progress.pixel
  rw [h.bitmap_eq, context_upTo hfits.valid.allBefore_offsets]
  refine ⟨?_, hnext.size_eq, hnext.typical_eq, hnext.reads⟩
  dsimp only
  rw [hbit, hnext.bitmap_eq, Bitmap.push_upTo hfits.size_pixels hx hy]

theorem Progress.IsAt.pixels {y : Nat} (hfits : r.Fits b) (hy : y < b.height) {count : Nat}
    (hcount : count ≤ b.width)
    (h : s.IsAt b (y * b.width) (2 ^ r.offsets.length) typical
      ((List.range count).map (r.pixelDecision b y) ++ decisions)) :
    ((List.range count).foldl (Progress.pixel r.offsets y) s).IsAt b (y * b.width + count)
      (2 ^ r.offsets.length) typical decisions := by
  induction count generalizing decisions with
  | zero => exact h
  | succ count ih =>
    rw [List.range_succ, List.map_append, List.append_assoc] at h
    rw [List.range_succ, List.foldl_append]
    exact (ih (Nat.le_of_succ_le hcount) h).pixel hfits hcount hy

/-- A row that equals the one before it is copied. -/
theorem Progress.IsAt.repeatRow {y : Nat} (hfits : r.Fits b) (hy : y < b.height)
    (hrepeats : b.repeatsRow y = true) (h : s.IsAt b (y * b.width) size typical decisions) :
    (s.repeatRow y).IsAt b (y * b.width + b.width) size typical decisions := by
  have hwidth : s.bitmap.width = b.width := by rw [h.bitmap_eq]; rfl
  have hfirst : ∀ count ≤ b.width, ((List.range count).foldl (fun s (x : Nat) =>
      { s with bitmap := s.bitmap.push (s.bitmap.get x ((y : Int) - 1)) }) s).IsAt b
        (y * b.width + count) size typical decisions := by
    intro count hcount
    induction count with
    | zero => exact h
    | succ count ih =>
      obtain ⟨hbitmap, hsize, htypical, hreads⟩ := ih (Nat.le_of_succ_le hcount)
      rw [List.range_succ, List.foldl_append]
      refine ⟨?_, hsize, htypical, hreads⟩
      rw [List.foldl_cons, List.foldl_nil]
      dsimp only
      rw [hbitmap, Bitmap.get_above_upTo, ← Bitmap.get_of_repeatsRow hrepeats hcount,
        Bitmap.push_upTo hfits.size_pixels hcount hy]
      rfl
  unfold Progress.repeatRow
  rw [hwidth]
  exact hfirst b.width (Nat.le_refl _)

/-! ## Decoding rows -/

/-- The pixels of a row are copied if it is marked, and decoded if not. -/
theorem Progress.IsAt.rowPixels {y : Nat} (hfits : r.Fits b) (hy : y < b.height)
    (hrepeats : typical = true → b.repeatsRow y = true)
    (h : s.IsAt b (y * b.width) (2 ^ r.offsets.length) typical
      ((if typical then [] else (List.range b.width).map (r.pixelDecision b y)) ++ decisions)) :
    (if s.typical then s.repeatRow y
      else (List.range b.width).foldl (Progress.pixel r.offsets y) s).IsAt b
        ((y + 1) * b.width) (2 ^ r.offsets.length) typical decisions := by
  rw [h.typical_eq, Nat.succ_mul]
  cases typical with
  | true => exact Progress.IsAt.repeatRow hfits hy (hrepeats rfl) h
  | false => exact h.pixels hfits hy (Nat.le_refl _)

/-- A row is decoded with its mark, if rows have marks. -/
theorem Progress.IsAt.row {y : Nat} {marked : Nat → Bool} (hfits : r.Fits b) (hy : y < b.height)
    (hrepeats : marked y = true → b.repeatsRow y = true)
    (h : s.IsAt b (y * b.width) (2 ^ r.offsets.length)
      (r.typicalPrediction && markBefore marked y)
      (r.rowDecisions (typicalContext r.template) marked b y ++ decisions)) :
    (Progress.row r r.offsets s y).IsAt b ((y + 1) * b.width) (2 ^ r.offsets.length)
      (r.typicalPrediction && marked y) decisions := by
  unfold Progress.row
  unfold rowDecisions at h
  rw [hfits.width_eq]
  by_cases hprediction : r.typicalPrediction = true
  · rw [if_pos hprediction] at h ⊢
    rw [hprediction, Bool.true_and] at h ⊢
    rw [List.cons_append] at h
    obtain ⟨hbit, hnext⟩ := h.bit (typicalContext_lt_offsets r)
    refine Progress.IsAt.rowPixels hfits hy hrepeats
      ⟨hnext.bitmap_eq, hnext.size_eq, ?_, hnext.reads⟩
    dsimp only
    rw [hnext.typical_eq, hbit]
    cases markBefore marked y <;> cases marked y <;> rfl
  · rw [if_neg hprediction] at h ⊢
    rw [Bool.eq_false_iff.mpr hprediction, Bool.false_and] at h ⊢
    exact Progress.IsAt.rowPixels hfits hy (fun hfalse => absurd hfalse (by decide)) h

theorem Progress.IsAt.rows {marked : Nat → Bool} (hfits : r.Fits b)
    (hrepeats : ∀ y < b.height, marked y = true → b.repeatsRow y = true)
    {count : Nat} (hcount : count ≤ b.height)
    (h : s.IsAt b 0 (2 ^ r.offsets.length) false
      ((List.range count).flatMap (r.rowDecisions (typicalContext r.template) marked b) ++
        decisions)) :
    ((List.range count).foldl (Progress.row r r.offsets) s).IsAt b (count * b.width)
      (2 ^ r.offsets.length) (r.typicalPrediction && markBefore marked count) decisions := by
  -- the decisions of later rows are still unread after each row
  induction count generalizing decisions with
  | zero =>
    rw [Nat.zero_mul, markBefore, Bool.and_false]
    exact h
  | succ count ih =>
    rw [List.range_succ, List.flatMap_append, List.flatMap_singleton, List.append_assoc] at h
    rw [List.range_succ, List.foldl_append]
    exact (ih (Nat.le_of_succ_le hcount) h).row hfits hcount (hrepeats count hcount)

/-- The bitmap is decoded if the marks are coded in the context of the decoder. -/
theorem decode_encode {marked : Nat → Bool} (hfits : r.Fits b) (hwidth : 0 < b.width)
    (hheight : 0 < b.height)
    (hrepeats : ∀ y < b.height, marked y = true → b.repeatsRow y = true)
    (hdata : r.data = r.encode (typicalContext r.template) marked b) :
    r.decode = .ok { b with background := false } := by
  have hempty : ¬ (r.info.width = 0 ∨ r.info.height = 0) := by
    rw [hfits.width_eq, hfits.height_eq]
    omega
  have hfax : ¬ r.faxCoded = true := by
    rw [hfits.valid.arithmetic]
    exact Bool.false_ne_true
  have hdecoded := @Progress.IsAt.rows r b
    ⟨⟨b.width, b.height, #[], false⟩, .start r.data, Array.replicate (1 <<< r.offsets.length) {}, false⟩
    [] marked hfits hrepeats _ (Nat.le_refl _) ?_
  · rw [decode, if_neg hempty, if_neg hfax, decodeArithmetic, hfits.width_eq, hfits.height_eq,
      hdecoded.bitmap_eq, Nat.mul_comm, Bitmap.upTo_size hfits.size_pixels]
  · refine ⟨rfl, ?_, rfl, ?_⟩
    · rw [Array.size_replicate, Nat.one_shiftLeft]
    · -- no decisions are left to read after the last row
      rw [hdata, List.append_nil]
      exact Progress.reads_start _ _ _

/-- The bitmap is decoded from the data of its segment, whichever rows that equal the one before them
are marked. -/
theorem decode_parse_code {marked : Nat → Bool} (hfits : r.Fits b) (hwidth : 0 < b.width)
    (hheight : 0 < b.height)
    (hrepeats : ∀ y < b.height, marked y = true → b.repeatsRow y = true) :
    let coded := { r with data := r.encode (typicalContext r.template) marked b }
    (parse coded.code false >>= decode) = .ok { b with background := false } := by
  intro coded
  have hcoded : coded.Fits b :=
    ⟨hfits.valid.withData _, hfits.width_eq, hfits.height_eq, hfits.size_pixels⟩
  have hparse : parse coded.code false = .ok coded := parse_code hcoded.valid false
  rw [hparse]
  exact decode_encode hcoded hwidth hheight hrepeats rfl

/-- Three rows, of which the second one is marked. One adaptive pixel is also fixed, two are too far away
to be in the bitmap. -/
theorem decode_parse_code_bars :
    let bars : Bitmap :=
      ⟨4, 3, #[true, true, false, true, true, true, false, true, false, true, true, false], false⟩
    bars.repeatsRow 1 = true ∧
      (parse [0, 0, 0, 4, 0, 0, 0, 3, 0, 0, 0, 0, 0, 0, 0, 0, 0, 8, 255, 0, 127, 255, 0, 128, 2, 254,
        22, 79, 255, 172] false >>= decode) = .ok bars := by
  intro bars
  let r : Region :=
    ⟨⟨4, 3, 0, 0, .or⟩, false, 0, true, [(-1, 0), (127, -1), (0, -128), (2, -2)], []⟩
  have hprecedes : ∀ distance ∈ r.adaptivePixels, Precedes distance := by decide
  have hvalid : r.Valid :=
    ⟨by decide, by decide, by decide, by decide, by decide, rfl, by decide, rfl, hprecedes⟩
  have hcode : { r with data := r.encode (typicalContext r.template) bars.repeatsRow bars }.code =
      [0, 0, 0, 4, 0, 0, 0, 3, 0, 0, 0, 0, 0, 0, 0, 0, 0, 8, 255, 0, 127, 255, 0, 128, 2, 254,
        22, 79, 255, 172] := by
    decide +kernel
  refine ⟨by decide, ?_⟩
  rw [← hcode]
  exact @decode_parse_code r bars bars.repeatsRow ⟨hvalid, rfl, rfl, rfl⟩ (by decide) (by decide)
    fun _ _ hrepeats => hrepeats

end Region

end Folio.Bilevel
