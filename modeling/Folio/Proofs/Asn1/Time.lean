import Folio.Asn1.Time
import Folio.Proofs.Bytes

/-!
# Written times

How a point in time is written, and that it is read back. `ShortText` and `LongText` are the texts with two
and with four digits for the year; parts of them may be left out. Main statements: `parseShort_eq_ok` and
`parseLong_eq_ok`.
-/

namespace Folio.Asn1.Time

variable {α β : Type} {t : Time} {text rest : Bytes} {n : Nat}

/-! ## Parts of a text -/

/-- The last `count` decimal digits of a number. -/
def digits : Nat → Nat → Bytes
  | 0, _ => []
  | count + 1, n => digits count (n / 10) ++ [(48 + n % 10).toUInt8]

/-- Two digits, which may be left out for zero. -/
inductive Optional : Nat → Bytes → Prop
  | written (n : Nat) : Optional n (digits 2 n)
  | omitted : Optional 0 []

/-- An offset from universal time. -/
inductive Zone : Int → Bytes → Prop
  | universal : Zone 0 [90]
  | ahead {hours minutes : Nat} : hours < 24 → minutes < 60 →
    Zone (hours * 60 + minutes : Nat) (43 :: (digits 2 hours ++ digits 2 minutes))
  | behind {hours minutes : Nat} : hours < 24 → minutes < 60 →
    Zone (-(hours * 60 + minutes : Nat)) (45 :: (digits 2 hours ++ digits 2 minutes))

/-- A fraction of a second. -/
inductive Fraction : Bytes → Prop
  | absent : Fraction []
  | places {mark : UInt8} {places : Bytes} : mark = 46 ∨ mark = 44 →
    (∀ b ∈ places, Syntax.isDigit b = true) → Fraction (mark :: places)

/-- The minute and the second of an hour. Where one is left out, so is what follows it. -/
inductive Clock : Nat → Nat → Bytes → Prop
  | hour : Clock 0 0 []
  | minute (minute : Nat) : Clock minute 0 (digits 2 minute)
  | second (minute second : Nat) {fraction : Bytes} : Fraction fraction →
    Clock minute second (digits 2 minute ++ (digits 2 second ++ fraction))

/-- A text with two digits for the year. -/
inductive ShortText (t : Time) : Bytes → Prop
  | mk {second zone : Bytes} : 1950 ≤ t.year → t.year < 2050 → Optional t.second second →
    Zone t.offset zone → ShortText t (digits 2 (t.year % 100) ++ (digits 2 t.month ++ (digits 2 t.day ++
      (digits 2 t.hour ++ (digits 2 t.minute ++ (second ++ zone))))))

/-- A text with four digits for the year. Universal time need not be marked. -/
inductive LongText (t : Time) : Bytes → Prop
  | mk {clock zone : Bytes} : t.year < 10000 → Clock t.minute t.second clock →
    (Zone t.offset zone ∨ t.offset = 0 ∧ zone = []) → LongText t (digits 4 t.year ++ (digits 2 t.month ++
      (digits 2 t.day ++ (digits 2 t.hour ++ (clock ++ zone)))))

/-! ## Reading them -/

theorem bind_eq_of_eq_some {r : Reader α} {f : α → Reader β} {a : α} (h : r text = some (a, rest)) :
    (r >>= f) text = f a rest := by
  simp [bind, StateT.bind, h]

theorem length_digits (count n : Nat) : (digits count n).length = count := by
  induction count generalizing n with
  | zero => rfl
  | succ count ih => simp [digits, ih]

theorem digit_spec (h : n < 10) : Syntax.isDigit (48 + n).toUInt8 = true ∧
    ((48 + n).toUInt8 - 48).toNat = n := by
  revert n
  decide

theorem all_digits (count n : Nat) : (digits count n).all Syntax.isDigit = true := by
  induction count generalizing n with
  | zero => rfl
  | succ count ih =>
    have hlast := (digit_spec (Nat.mod_lt n (by decide : 0 < 10))).1
    rw [digits, List.all_append, ih, List.all_cons, hlast, List.all_nil]
    rfl

theorem foldl_digits {count : Nat} (h : n < 10 ^ count) :
    (digits count n).foldl (fun n d => n * 10 + (d - 48).toNat) 0 = n := by
  induction count generalizing n with
  | zero => exact (Nat.lt_one_iff.mp h).symm
  | succ count ih =>
    rw [pow_succ] at h
    have hlast := (digit_spec (Nat.mod_lt n (by decide : 0 < 10))).2
    rw [digits, List.foldl_append, ih (by omega), List.foldl_cons, List.foldl_nil, hlast]
    omega

theorem number_digits {count : Nat} (h : n < 10 ^ count) (rest : Bytes) :
    number count (digits count n ++ rest) = some (n, rest) := by
  have hsplit : Bytes.splitAt? (digits count n ++ rest) count = some (digits count n, rest) :=
    Bytes.splitAt?_eq_some.mpr ⟨length_digits count n, rfl⟩
  rw [number, hsplit]
  exact (if_pos (all_digits count n)).trans (by rw [foldl_digits h])

theorem head?_digits_append (count n : Nat) (rest : Bytes) :
    (digits (count + 1) n ++ rest).head?.any Syntax.isDigit = true := by
  have hall := all_digits (count + 1) n
  have hlength := length_digits (count + 1) n
  cases hdigits : digits (count + 1) n with
  | nil => rw [hdigits] at hlength; cases hlength
  | cons b bytes =>
    rw [hdigits, List.all_cons, Bool.and_eq_true] at hall
    exact hall.1

theorem get_bind (f : Bytes → Reader α) (text : Bytes) : (get >>= f) text = f text text := rfl

theorem Optional.optionalNumber_append {written : Bytes} (h : Optional n written) (hn : n < 100)
    (hrest : rest.head?.any Syntax.isDigit = false) : optionalNumber (written ++ rest) = some (n, rest) := by
  rw [optionalNumber, get_bind]
  cases h with
  | written =>
    rw [if_pos (head?_digits_append 1 n rest)]
    exact number_digits hn rest
  | omitted =>
    rw [List.nil_append, if_neg (by simp [hrest])]
    rfl

/-- Whether a text begins neither with a digit nor with the mark of a fraction. -/
def EndsClock (rest : Bytes) : Prop :=
  rest.head?.any Syntax.isDigit = false ∧ ∀ b ∈ rest.head?, b ≠ 46 ∧ b ≠ 44

theorem Zone.endsClock {offset : Int} {zone : Bytes} (h : Zone offset zone) : EndsClock zone := by
  cases h <;> exact ⟨rfl, by simp⟩

theorem endsClock_of_zone {offset : Int} {zone : Bytes} (h : Zone offset zone ∨ offset = 0 ∧ zone = []) :
    EndsClock zone := by
  rcases h with h | ⟨-, rfl⟩
  · exact h.endsClock
  · exact ⟨rfl, by simp⟩

theorem Zone.not_isEmpty {offset : Int} {zone : Bytes} (h : Zone offset zone) : ¬ zone.isEmpty = true := by
  cases h <;> exact Bool.false_ne_true

theorem Zone.offsetAtEnd_eq {offset : Int} {zone : Bytes} (h : Zone offset zone) :
    offsetAtEnd zone = some (offset, []) := by
  have hread : ∀ {hours minutes : Nat}, hours < 24 → minutes < 60 →
      number 2 (digits 2 hours ++ digits 2 minutes) = some (hours, digits 2 minutes) ∧
        number 2 (digits 2 minutes) = some (minutes, []) := by
    intro hours minutes hh hm
    have hminutes := @number_digits minutes 2 (by omega) []
    rw [List.append_nil] at hminutes
    exact ⟨number_digits (by omega) _, hminutes⟩
  rw [offsetAtEnd, get_bind]
  cases h with
  | universal => rfl
  | ahead hh hm =>
    simp [bind, StateT.bind, hread hh hm, hm, guard, StateT.pure, pure, set, StateT.set, get, getThe,
      MonadStateOf.get, StateT.get]
  | behind hh hm =>
    simp [bind, StateT.bind, hread hh hm, hm, guard, StateT.pure, pure, set, StateT.set, get, getThe,
      MonadStateOf.get, StateT.get]

theorem dropWhile_isDigit (h : rest.head?.any Syntax.isDigit = false) :
    rest.dropWhile Syntax.isDigit = rest := by
  cases rest with
  | nil => rfl
  | cons b rest => exact List.dropWhile_cons_of_neg (by simpa using h)

theorem Fraction.skipFraction_append {fraction : Bytes} (h : Fraction fraction)
    (hrest : EndsClock rest) : skipFraction (fraction ++ rest) = some ((), rest) := by
  obtain ⟨hdigit, hmark⟩ := hrest
  cases h with
  | absent =>
    cases rest with
    | nil => rfl
    | cons b rest =>
      have hb := hmark b rfl
      simp [skipFraction, modify, modifyGet, MonadStateOf.modifyGet, StateT.modifyGet, pure, hb]
  | @places mark places hplace hall =>
    have hdrop : (places ++ rest).dropWhile Syntax.isDigit = rest := by
      rw [List.dropWhile_append_of_pos hall, dropWhile_isDigit hdigit]
    simp [skipFraction, modify, modifyGet, MonadStateOf.modifyGet, StateT.modifyGet, pure, hplace, hdrop]

theorem Clock.exists_read {minute second : Nat} {clock : Bytes} (h : Clock minute second clock)
    (hminute : minute < 100) (hsecond : second < 100) (hrest : EndsClock rest) :
    ∃ afterMinute afterSecond, optionalNumber (clock ++ rest) = some (minute, afterMinute) ∧
      optionalNumber afterMinute = some (second, afterSecond) ∧
      skipFraction afterSecond = some ((), rest) := by
  have hnone := Optional.omitted.optionalNumber_append (by decide) hrest.1
  have hskip := Fraction.absent.skipFraction_append hrest
  cases h with
  | hour => exact ⟨rest, rest, hnone, hnone, hskip⟩
  | minute minute =>
    exact ⟨rest, rest, (Optional.written minute).optionalNumber_append hminute hrest.1, hnone, hskip⟩
  | @second minute second fraction hfraction =>
    refine ⟨digits 2 second ++ (fraction ++ rest), fraction ++ rest, ?_, ?_,
      hfraction.skipFraction_append hrest⟩
    · rw [List.append_assoc, List.append_assoc, optionalNumber, get_bind,
        if_pos (head?_digits_append 1 minute _)]
      exact number_digits hminute _
    · rw [optionalNumber, get_bind, if_pos (head?_digits_append 1 second _)]
      exact number_digits hsecond _

/-! ## Texts -/

theorem daysInMonth_le (year month : Nat) : daysInMonth year month ≤ 31 := by
  unfold daysInMonth
  split_ifs <;> omega

theorem parseWith_eq_ok {reader : Reader Time} (hread : reader text = some (t, rest)) (h : t.IsValid) :
    parseWith reader text = .ok t := by
  rw [parseWith, hread]
  simp [check?, h]

theorem ShortText.readShort_eq (h : ShortText t text) (hvalid : t.IsValid) :
    readShort text = some (t, []) := by
  obtain ⟨hmonth, hmonth', hday, hday', hhour, hminute, hsecond, hoffset⟩ := hvalid
  have hdays := daysInMonth_le t.year t.month
  obtain @⟨second, zone, hfrom, hto, hsecondText, hzone⟩ := h
  have hyear : (if 50 ≤ t.year % 100 then 1900 + t.year % 100 else 2000 + t.year % 100) = t.year := by
    split <;> omega
  rw [readShort, bind_eq_of_eq_some (number_digits (by omega) _),
    bind_eq_of_eq_some (number_digits (by omega) _), bind_eq_of_eq_some (number_digits (by omega) _),
    bind_eq_of_eq_some (number_digits (by omega) _), bind_eq_of_eq_some (number_digits (by omega) _),
    bind_eq_of_eq_some (hsecondText.optionalNumber_append (by omega) hzone.endsClock.1),
    bind_eq_of_eq_some hzone.offsetAtEnd_eq, hyear]
  rfl

/-- A time is read back from a text with two digits for the year. -/
theorem parseShort_eq_ok (h : ShortText t text) (hvalid : t.IsValid) : parseShort text = .ok t :=
  parseWith_eq_ok (h.readShort_eq hvalid) hvalid

/-- A time is read from a text with four digits for the year if its clock is, up to the zone. -/
theorem readLong_append {clock afterMinute afterSecond zone : Bytes} (hyear : t.year < 10000)
    (hvalid : t.IsValid) (hminute : optionalNumber clock = some (t.minute, afterMinute))
    (hsecond : optionalNumber afterMinute = some (t.second, afterSecond))
    (hskip : skipFraction afterSecond = some ((), zone))
    (hzone : Zone t.offset zone ∨ t.offset = 0 ∧ zone = []) :
    readLong (digits 4 t.year ++ (digits 2 t.month ++ (digits 2 t.day ++ (digits 2 t.hour ++ clock)))) =
      some (t, []) := by
  obtain ⟨hmonth, hmonth', hday, hday', hhour, -⟩ := hvalid
  have hdays := daysInMonth_le t.year t.month
  rw [readLong, bind_eq_of_eq_some (number_digits (by omega) _),
    bind_eq_of_eq_some (number_digits (by omega) _), bind_eq_of_eq_some (number_digits (by omega) _),
    bind_eq_of_eq_some (number_digits (by omega) _), bind_eq_of_eq_some hminute,
    bind_eq_of_eq_some hsecond, bind_eq_of_eq_some hskip, get_bind]
  rcases hzone with hzone | ⟨hzero, rfl⟩
  · rw [if_neg hzone.not_isEmpty, bind_eq_of_eq_some hzone.offsetAtEnd_eq]
    rfl
  · change some ((⟨t.year, t.month, t.day, t.hour, t.minute, t.second, 0⟩ : Time), []) = some (t, [])
    rw [← hzero]

theorem LongText.readLong_eq (h : LongText t text) (hvalid : t.IsValid) :
    readLong text = some (t, []) := by
  have ⟨_, _, _, _, _, hminute, hsecond, _⟩ := hvalid
  obtain @⟨clock, zone, hyear, hclock, hzone⟩ := h
  obtain ⟨afterMinute, afterSecond, hreadMinute, hreadSecond, hskip⟩ :=
    hclock.exists_read (by omega) (by omega) (endsClock_of_zone hzone)
  exact readLong_append hyear hvalid hreadMinute hreadSecond hskip hzone

/-- A time is read back from a text with four digits for the year. -/
theorem parseLong_eq_ok (h : LongText t text) (hvalid : t.IsValid) : parseLong text = .ok t :=
  parseWith_eq_ok (h.readLong_eq hvalid) hvalid

end Folio.Asn1.Time
