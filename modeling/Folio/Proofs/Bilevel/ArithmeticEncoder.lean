import Folio.Proofs.Bilevel.CodeString

/-!
# Adaptive arithmetic encoding

The encoder that belongs to the decoder. It keeps an interval of fractions: the bytes written and the
register `c` are its lower end, `a` is its size. A bit narrows the interval, and while it is smaller
than half of the full size it is doubled, which moves digits of `c` into the bytes. A carry out of
`c` goes into the last byte, or into the spare digit after a byte `FF`.

Main statements: doubling and writing bytes leave the interval where it is, and the digits kept in
`c` leave room for at most one carry into the bytes written.
-/

namespace Folio.Bilevel

/-- The state of an arithmetic encoder. -/
structure ArithmeticEncoder where
  /-- The bytes before the last one, latest first. -/
  earlier : Bytes
  /-- The last byte written, at the start a zero that is not part of the data. -/
  last : UInt8
  /-- The digits of the lower end of the interval that are not written yet. -/
  c : Nat
  /-- The size of the interval. -/
  a : Nat
  /-- How many doublings are left before the next byte is written. -/
  ct : Nat

namespace ArithmeticEncoder

/-- The encoder at the start. -/
def start : ArithmeticEncoder := ⟨[], 0, 0, 0x8000, 12⟩

/-- The bytes written, latest first. -/
def written (e : ArithmeticEncoder) : Bytes := e.last :: e.earlier

/-- Writes the highest seven digits of `c` with the spare one before them. -/
def putSeven (e : ArithmeticEncoder) : ArithmeticEncoder :=
  { e with
    earlier := e.written
    last := (e.c / 0x100000).toUInt8
    c := e.c % 0x100000
    ct := 7 }

/-- Writes the highest eight digits of `c`. -/
def putEight (e : ArithmeticEncoder) : ArithmeticEncoder :=
  { e with
    earlier := e.written
    last := (e.c / 0x80000).toUInt8
    c := e.c % 0x80000
    ct := 8 }

/-- Writes the next byte after a carry, if there is one. -/
def putByte (e : ArithmeticEncoder) : ArithmeticEncoder :=
  if e.last = 0xFF then e.putSeven
  else if e.c < 0x8000000 then e.putEight
  else
    let e := { e with last := e.last + 1, c := e.c % 0x8000000 }
    if e.last = 0xFF then e.putSeven else e.putEight

/-- Doubles the interval. -/
def double (e : ArithmeticEncoder) : ArithmeticEncoder :=
  let e := { e with a := e.a * 2, c := e.c * 2, ct := e.ct - 1 }
  if e.ct = 0 then e.putByte else e

/-- Doubles the interval until it has at least half of its full size, at most `fuel` times. -/
def renormalize : Nat → ArithmeticEncoder → ArithmeticEncoder
  | 0, e => e
  | fuel + 1, e =>
    let e := e.double
    if 0x8000 ≤ e.a then e else renormalize fuel e

/-- The lower part of the interval, of the given size. -/
def takeLower (e : ArithmeticEncoder) (size : Nat) : ArithmeticEncoder := { e with a := size }

/-- The interval without its lower part of the given size. -/
def takeUpper (e : ArithmeticEncoder) (size : Nat) : ArithmeticEncoder :=
  { e with a := e.a - size, c := e.c + size }

/-- The context and the encoder after a bit in a context. The lower part of the interval stands for
the less probable bit, unless it is the larger one. -/
def encode (e : ArithmeticEncoder) (cx : BitContext) (bit : Bool) :
    BitContext × ArithmeticEncoder :=
  let size := cx.estimate.size.toNat
  let rest := e.a - size
  if bit = cx.likely then
    if 0x8000 ≤ rest then (cx, e.takeUpper size)
    else
      let e := if rest < size then e.takeLower size else e.takeUpper size
      (cx.seeLikely, e.renormalize ArithmeticDecoder.maxDoublings)
  else
    let e := if rest < size then e.takeUpper size else e.takeLower size
    (cx.seeUnlikely, e.renormalize ArithmeticDecoder.maxDoublings)

/-- Narrows the interval to a single value of `c` that ends in as many ones as possible. -/
def setBits (e : ArithmeticEncoder) : ArithmeticEncoder :=
  let c := e.c ||| 0xFFFF
  { e with c := if e.c + e.a ≤ c then c - 0x8000 else c, a := 1 }

/-- The encoder after all doublings up to the next byte, which is not written yet. -/
def due (e : ArithmeticEncoder) : ArithmeticEncoder :=
  { e with a := e.a * 2 ^ e.ct, c := e.c * 2 ^ e.ct, ct := 0 }

/-- Writes a byte before it is due. -/
def flushByte (e : ArithmeticEncoder) : ArithmeticEncoder := e.due.putByte

/-- The bytes of the data, latest first, after the byte that is no part of them. -/
def flushed (e : ArithmeticEncoder) : Bytes := e.setBits.flushByte.flushByte.written

/-- The marker that ends the data. Its first byte is the last one of the data if that is `FF`. -/
def marker (s : Bytes) : Bytes := if s.head? = some 0xFF then [0xAC] else [0xFF, 0xAC]

/-- The data of the encoder at the end. -/
def finish (e : ArithmeticEncoder) : Bytes :=
  e.flushed.reverse.tail ++ marker e.flushed

end ArithmeticEncoder

section Runs

variable {κ : Type} [DecidableEq κ]

/-- The encoder after a list of bits in their contexts, of which there may be any number. -/
def encodeAll (e : ArithmeticEncoder) :
    (κ → BitContext) → List (κ × Bool) → ArithmeticEncoder
  | _, [] => e
  | contexts, (k, bit) :: rest =>
    let (cx, e) := e.encode (contexts k) bit
    encodeAll e (Function.update contexts k cx) rest

/-- The bits that a decoder reads in a list of contexts. -/
def decodeAll (d : ArithmeticDecoder) : (κ → BitContext) → List κ → List Bool
  | _, [] => []
  | contexts, k :: rest =>
    let (bit, cx, d) := d.decode (contexts k)
    bit :: decodeAll d (Function.update contexts k cx) rest

end Runs

namespace ArithmeticEncoder

variable {e : ArithmeticEncoder}

/-! ## The interval of an encoder -/

/-- The lower end of the interval, as a number of `scale` digits. -/
def base (e : ArithmeticEncoder) : Nat := codeValue e.written * 2 ^ (27 - e.ct) + e.c

/-- The number of digits of the lower end. -/
def scale (e : ArithmeticEncoder) : Nat := codeDigits e.written + (27 - e.ct)

/-- The lower end of the interval. -/
def low (e : ArithmeticEncoder) : ℚ := frac e.base e.scale

/-- The upper end of the interval. -/
def high (e : ArithmeticEncoder) : ℚ := frac (e.base + e.a) e.scale

/-- The last byte with a carry, before which nothing changes. -/
theorem codeValue_carry {b : UInt8} {earlier : Bytes} (h : b ≠ 0xFF) :
    codeValue ((b + 1) :: earlier) = codeValue (b :: earlier) + 1 := by
  have hb : b.toNat ≠ 255 := fun heq => h (UInt8.toNat.inj heq)
  have hlt := b.toNat_lt
  rw [codeValue, codeValue, UInt8.toNat_add, UInt8.toNat_one, Nat.mod_eq_of_lt (by omega),
    Nat.add_assoc]

/-- What writing a byte does, if it is due: the interval stays, a new byte follows the ones written,
the last of which may have taken a carry, and the rest of `c` is less than one unit of the byte. -/
structure Puts (e e' : ArithmeticEncoder) : Prop where
  base_eq : e'.base = e.base
  scale_eq : e'.scale = e.scale
  a_eq : e'.a = e.a
  written_eq : e'.earlier = e.written ∨
    e.last ≠ 0xFF ∧ e'.earlier = (e.last + 1) :: e.earlier
  ct_eq : e'.ct = 7 ∨ e'.ct = 8
  c_lt : e'.c < 2 ^ (27 - e'.ct)

theorem putSeven_puts (hct : e.ct = 0) (hdigits : digitsAfter e.written = 7)
    (hc : e.c < 2 ^ 28) : Puts e e.putSeven where
  base_eq := by
    simp only [base, putSeven, written] at hdigits ⊢
    rw [codeValue, hdigits, hct, Nat.toUInt8, UInt8.toNat_ofNat']
    omega
  scale_eq := by
    simp only [scale, putSeven, written] at hdigits ⊢
    rw [codeDigits, hdigits, hct]
  a_eq := rfl
  written_eq := .inl rfl
  ct_eq := .inl rfl
  c_lt := Nat.mod_lt _ (by decide)

theorem putEight_puts (hct : e.ct = 0) (hdigits : digitsAfter e.written = 8)
    (hc : e.c < 2 ^ 27) : Puts e e.putEight where
  base_eq := by
    simp only [base, putEight, written] at hdigits ⊢
    rw [codeValue, hdigits, hct, Nat.toUInt8, UInt8.toNat_ofNat']
    omega
  scale_eq := by
    simp only [scale, putEight, written] at hdigits ⊢
    rw [codeDigits, hdigits, hct]
  a_eq := rfl
  written_eq := .inl rfl
  ct_eq := .inr rfl
  c_lt := Nat.mod_lt _ (by decide)

/-- A carry moves a digit from `c` into the last byte. -/
theorem Puts.of_carry {e' : ArithmeticEncoder} (hct : e.ct = 0) (hlast : e.last ≠ 0xFF)
    (hlow : 2 ^ 27 ≤ e.c) (hhigh : e.c < 2 ^ 28)
    (h : Puts { e with last := e.last + 1, c := e.c % 0x8000000 } e')
    (hexact : e'.earlier = (e.last + 1) :: e.earlier) : Puts e e' where
  base_eq := by
    rw [h.base_eq]
    simp only [base, written, hct]
    rw [codeValue_carry hlast]
    omega
  scale_eq := h.scale_eq
  a_eq := h.a_eq
  written_eq := .inr ⟨hlast, hexact⟩
  ct_eq := h.ct_eq
  c_lt := h.c_lt

theorem putByte_puts (hct : e.ct = 0) (hc : e.c < 0x9000000) : Puts e e.putByte := by
  unfold putByte
  split
  · rename_i hlast
    exact putSeven_puts hct (by rw [written, hlast]; rfl) (by omega)
  · rename_i hlast
    split
    · exact putEight_puts hct (digitsAfter_of_ne hlast) (by omega)
    · dsimp only
      split
      · rename_i hcarry
        refine .of_carry hct hlast (by omega) (by omega) (putSeven_puts hct ?_ ?_) rfl
        · simp only [written, hcarry]
          rfl
        · exact (Nat.mod_lt _ (by decide)).trans (by decide)
      · rename_i hcarry
        refine .of_carry hct hlast (by omega) (by omega) (putEight_puts hct ?_ ?_) rfl
        · exact digitsAfter_of_ne hcarry
        · exact Nat.mod_lt _ (by decide)

/-- The bounds of the registers while bits are encoded. The interval ends at most one eighth of a
unit of the last byte above the next unit, so a byte after `FF` is at most `8F`. -/
structure Valid (e : ArithmeticEncoder) : Prop where
  ct_pos : 0 < e.ct
  ct_le : e.ct ≤ 12
  room : e.c + e.a ≤ 9 * 2 ^ (24 - e.ct)
  a_le : e.a ≤ 0x10000

theorem valid_start : start.Valid := ⟨by decide, by decide, by decide, by decide⟩

/-- The interval doubled, before a byte is written. -/
def doubled (e : ArithmeticEncoder) : ArithmeticEncoder :=
  { e with a := e.a * 2, c := e.c * 2, ct := e.ct - 1 }

theorem base_doubled (hpos : 0 < e.ct) (hle : e.ct ≤ 27) : e.doubled.base = e.base * 2 := by
  have hexp : 27 - (e.ct - 1) = 27 - e.ct + 1 := by omega
  simp only [base, doubled, written, hexp, pow_succ]
  ring

theorem scale_doubled (hpos : 0 < e.ct) (hle : e.ct ≤ 27) : e.doubled.scale = e.scale + 1 := by
  simp only [scale, doubled, written]
  omega

theorem Valid.room_doubled (h : e.Valid) :
    e.doubled.c + e.doubled.a ≤ 9 * 2 ^ (24 - e.doubled.ct) := by
  have hroom := h.room
  have hpos := h.ct_pos
  have hle := h.ct_le
  have hexp : 24 - (e.ct - 1) = 24 - e.ct + 1 := by omega
  simp only [doubled, hexp, pow_succ]
  omega

theorem double_of_ne (h : e.doubled.ct ≠ 0) : e.double = e.doubled := if_neg h

theorem double_of_eq (h : e.doubled.ct = 0) : e.double = e.doubled.putByte := if_pos h

theorem Valid.double_puts (h : e.Valid) (ha : e.a ≤ 0x8000) (hpos : 0 < e.a)
    (hct : e.doubled.ct = 0) : Puts e.doubled e.double := by
  rw [double_of_eq hct]
  refine putByte_puts hct ?_
  have hroom := h.room_doubled
  rw [hct] at hroom
  simp only [doubled] at hroom ⊢
  omega

theorem Valid.base_double (h : e.Valid) (ha : e.a ≤ 0x8000) (hpos : 0 < e.a) :
    e.double.base = e.base * 2 := by
  have hle := h.ct_le
  rw [← base_doubled h.ct_pos (by omega)]
  by_cases hct : e.doubled.ct = 0
  · exact (h.double_puts ha hpos hct).base_eq
  · rw [double_of_ne hct]

theorem Valid.scale_double (h : e.Valid) (ha : e.a ≤ 0x8000) (hpos : 0 < e.a) :
    e.double.scale = e.scale + 1 := by
  have hle := h.ct_le
  rw [← scale_doubled h.ct_pos (by omega)]
  by_cases hct : e.doubled.ct = 0
  · exact (h.double_puts ha hpos hct).scale_eq
  · rw [double_of_ne hct]

theorem Valid.double (h : e.Valid) (ha : e.a ≤ 0x8000) (hpos : 0 < e.a) : e.double.Valid := by
  have hct_pos := h.ct_pos
  have hct_le := h.ct_le
  by_cases hct : e.doubled.ct = 0
  · have hputs := h.double_puts ha hpos hct
    have ha' : e.double.a = e.a * 2 := hputs.a_eq
    have hc := hputs.c_lt
    refine ⟨?_, ?_, ?_, by omega⟩
    · rcases hputs.ct_eq with hct | hct <;> omega
    · rcases hputs.ct_eq with hct | hct <;> omega
    · rcases hputs.ct_eq with hct | hct <;> rw [hct] at hc ⊢ <;> omega
  · rw [double_of_ne hct]
    refine ⟨Nat.pos_of_ne_zero hct, ?_, h.room_doubled, ?_⟩
    · simp only [doubled]
      omega
    · simp only [doubled]
      omega

end ArithmeticEncoder

end Folio.Bilevel
