import Folio.Proofs.Asn1.Time

/-!
# The grammar of written times

Which texts are read as a time. A text with two digits for the year is `YYMMDDhhmm[ss](Z|+hhmm|-hhmm)`, and
one with four is `YYYYMMDDhh[mm[ss[.f...f]]][Z|+hhmm|-hhmm]`, where a comma may stand for the point. Main
statement: `followsGrammar_iff`, exactly the texts of this grammar are read, but for those with a stray
fraction, one without digits or one that does not follow a second; it is skipped like any other.

Each reader is turned into the text that it takes (`number_eq_some`, `offsetAtEnd_eq_some`), so a time that is
read gives back the parts of its text.
-/

namespace Folio.Asn1.Time

variable {α β : Type} {t u : Time} {text rest : Bytes} {n : Nat}

/-! ## The grammar -/

/-- The number of days of each month in a common year. -/
def monthLengths : List Nat := [31, 28, 31, 30, 31, 30, 31, 31, 30, 31, 30, 31]

/-- Whether a year is a leap year of the Gregorian calendar. -/
def IsLeap (year : Nat) : Prop := 4 ∣ year ∧ (100 ∣ year → 400 ∣ year)

/-- Whether the date is one of the Gregorian calendar and the time one of a day. A minute may have a leap
second. -/
structure InCalendar (t : Time) : Prop where
  month : 1 ≤ t.month
  date : ∃ length ∈ monthLengths[t.month - 1]?,
    1 ≤ t.day ∧ (t.day ≤ length ∨ t.month = 2 ∧ IsLeap t.year ∧ t.day = 29)
  hour : t.hour < 24
  minute : t.minute < 60
  second : t.second ≤ 60

/-- The minute and the second of an hour. Where the minute is left out, so is the second. -/
inductive WholeClock : Nat → Nat → Bytes → Prop
  | hour : WholeClock 0 0 []
  | minute (minute : Nat) : WholeClock minute 0 (digits 2 minute)
  | second (minute second : Nat) : WholeClock minute second (digits 2 minute ++ digits 2 second)

/-- A text with four digits for the year, where a fraction may stand behind what is written of the clock if
the two are `allowed` together. Universal time need not be marked. -/
inductive LongForm (allowed : Bytes → Bytes → Prop) (t : Time) : Bytes → Prop
  | mk {clock fraction zone : Bytes} : t.year < 10000 → WholeClock t.minute t.second clock →
    Fraction fraction → allowed clock fraction → (Zone t.offset zone ∨ t.offset = 0 ∧ zone = []) →
    LongForm allowed t (digits 4 t.year ++ (digits 2 t.month ++ (digits 2 t.day ++
      (digits 2 t.hour ++ (clock ++ (fraction ++ zone))))))

/-- Whether a fraction, if there is one, has a digit behind its mark and follows a second. -/
def OfSecond (clock fraction : Bytes) : Prop :=
  fraction ≠ [] → 2 ≤ fraction.length ∧ clock.length = 4

/-- Whether there is a fraction without a digit, or one of an hour or of a minute. -/
def IsStray (clock fraction : Bytes) : Prop := ¬ OfSecond clock fraction

/-- Whether a text is read exactly as the grammar says, with two and with four digits for the year. -/
def FollowsGrammar (text : Bytes) : Prop :=
  ∀ t, (parseShort text = .ok t ↔ ShortText t text ∧ t.InCalendar) ∧
    (parseLong text = .ok t ↔ LongForm OfSecond t text ∧ t.InCalendar)

/-! ## The calendar -/

theorem isLeapYear_iff (year : Nat) : isLeapYear year = true ↔ IsLeap year := by
  simp only [isLeapYear, IsLeap, Bool.or_eq_true, Bool.and_eq_true, beq_iff_eq, bne_iff_ne]
  omega

theorem monthLengths_spec {month : Nat} (h : 1 ≤ month) (h' : month ≤ 12) :
    monthLengths[month - 1]? =
      some (if month = 2 then 28 else if month ∈ [4, 6, 9, 11] then 30 else 31) := by
  interval_cases month <;> rfl

/-- The fields are checked as the calendar says. -/
theorem isValid_iff : t.IsValid ↔ t.InCalendar ∧ t.offset.natAbs < 24 * 60 := by
  have hmonth : (∃ length ∈ monthLengths[t.month - 1]?, 1 ≤ t.day ∧
      (t.day ≤ length ∨ t.month = 2 ∧ IsLeap t.year ∧ t.day = 29)) → t.month ≤ 12 := by
    rintro ⟨length, hlength, -⟩
    obtain ⟨hlt, -⟩ := List.getElem?_eq_some_iff.mp hlength
    have : monthLengths.length = 12 := rfl
    omega
  have hdays (h : 1 ≤ t.month) (h' : t.month ≤ 12) : t.day ≤ daysInMonth t.year t.month ↔
      ∃ length ∈ monthLengths[t.month - 1]?,
        t.day ≤ length ∨ t.month = 2 ∧ IsLeap t.year ∧ t.day = 29 := by
    rw [monthLengths_spec h h', ← isLeapYear_iff]
    simp only [Option.mem_some_iff, exists_eq_left', daysInMonth]
    split_ifs <;> grind
  constructor
  · rintro ⟨hfrom, hto, hday, hlast, hhour, hminute, hsecond, hoffset⟩
    obtain ⟨length, hlength, hlast⟩ := (hdays hfrom hto).mp hlast
    exact ⟨⟨hfrom, ⟨length, hlength, hday, hlast⟩, hhour, hminute, hsecond⟩, hoffset⟩
  · rintro ⟨⟨hfrom, hdate, hhour, hminute, hsecond⟩, hoffset⟩
    have hto := hmonth hdate
    obtain ⟨length, hlength, hday, hlast⟩ := hdate
    have hlast := (hdays hfrom hto).mpr ⟨length, hlength, hlast⟩
    exact ⟨hfrom, hto, hday, hlast, hhour, hminute, hsecond, hoffset⟩

theorem Zone.natAbs_lt {offset : Int} {zone : Bytes} (h : Zone offset zone) : offset.natAbs < 24 * 60 := by
  cases h <;> omega

/-! ## What a reader takes -/

theorem bind_eq_some {r : Reader α} {f : α → Reader β} {b : β × Bytes} (h : (r >>= f) text = some b) :
    ∃ a mid, r text = some (a, mid) ∧ f a mid = some b := by
  obtain ⟨⟨a, mid⟩, ha, hf⟩ := Option.bind_eq_some_iff.mp h
  exact ⟨a, mid, ha, hf⟩

theorem isDigit_spec {b : UInt8} (h : Syntax.isDigit b = true) :
    (b - 48).toNat < 10 ∧ (48 + (b - 48).toNat).toUInt8 = b := by
  rw [Syntax.isDigit, Bool.and_eq_true, decide_eq_true_iff, decide_eq_true_iff] at h
  have hlow : 48 ≤ b.toNat := UInt8.le_iff_toNat_le.mp h.1
  have hhigh : b.toNat ≤ 57 := UInt8.le_iff_toNat_le.mp h.2
  have hvalue : (b - 48).toNat = b.toNat - 48 := UInt8.toNat_sub_of_le b 48 h.1
  rw [hvalue, Nat.add_sub_cancel' hlow]
  exact ⟨by omega, UInt8.ofNat_toNat⟩

/-- Decimal digits are those of the number that they write. -/
theorem digits_foldl {written : Bytes} (h : written.all Syntax.isDigit = true) :
    written.foldl (fun n d => n * 10 + (d - 48).toNat) 0 < 10 ^ written.length ∧
      digits written.length (written.foldl (fun n d => n * 10 + (d - 48).toNat) 0) = written := by
  induction written using List.reverseRecOn with
  | nil => exact ⟨Nat.one_pos, rfl⟩
  | append_singleton written d ih =>
    rw [List.all_append, Bool.and_eq_true, List.all_cons, List.all_nil, Bool.and_true] at h
    obtain ⟨hlt, hwritten⟩ := ih h.1
    obtain ⟨hd, hbyte⟩ := isDigit_spec h.2
    rw [List.foldl_append, List.foldl_cons, List.foldl_nil, List.length_append, List.length_singleton]
    generalize written.foldl (fun n d => n * 10 + (d - 48).toNat) 0 = value at hlt hwritten ⊢
    have hvalue : (value * 10 + (d - 48).toNat) / 10 = value := by omega
    have hdigit : (value * 10 + (d - 48).toNat) % 10 = (d - 48).toNat := by omega
    refine ⟨by rw [pow_succ]; omega, ?_⟩
    rw [digits, hvalue, hdigit, hwritten, hbyte]

theorem number_eq_some {count : Nat} :
    number count text = some (n, rest) ↔ n < 10 ^ count ∧ text = digits count n ++ rest := by
  constructor
  · intro h
    obtain ⟨⟨written, after⟩, hsplit, hread⟩ := Option.bind_eq_some_iff.mp h
    obtain ⟨rfl, rfl⟩ := Bytes.splitAt?_eq_some.mp hsplit
    dsimp only at hread
    split at hread
    · rename_i hall
      obtain ⟨hlt, hwritten⟩ := digits_foldl hall
      obtain ⟨rfl, rfl⟩ := Prod.mk.inj (Option.some.inj hread)
      exact ⟨hlt, by rw [hwritten]⟩
    · cases hread
  · rintro ⟨hn, rfl⟩
    exact number_digits hn rest

theorem optionalNumber_eq_some (h : optionalNumber text = some (n, rest)) :
    n < 100 ∧ text = digits 2 n ++ rest ∨ n = 0 ∧ text = rest ∧ rest.head?.any Syntax.isDigit = false := by
  rw [optionalNumber, get_bind] at h
  split at h
  · exact .inl (number_eq_some.mp h)
  · rename_i hnone
    obtain ⟨rfl, rfl⟩ := Prod.mk.inj (Option.some.inj h)
    exact .inr ⟨rfl, rfl, by simpa using hnone⟩

theorem skipFraction_eq_some {a : Unit} (h : skipFraction text = some (a, rest)) :
    ∃ fraction, Fraction fraction ∧ text = fraction ++ rest := by
  obtain rfl : _ = rest := (Prod.mk.inj (Option.some.inj h)).2
  cases text with
  | nil => exact ⟨[], .absent, rfl⟩
  | cons b places =>
    dsimp only
    split
    · rename_i hmark
      refine ⟨b :: places.takeWhile Syntax.isDigit, .places hmark fun c hc => List.mem_takeWhile_imp hc, ?_⟩
      rw [List.cons_append, List.takeWhile_append_dropWhile]
    · exact ⟨[], .absent, rfl⟩

/-- The offset that hours and minutes up to the end of a text state behind a sign. -/
def signedOffset (sign : Int) : Reader Int := do
  let hours ← number 2
  let minutes ← number 2
  guard (minutes < 60)
  guard (← get).isEmpty
  pure (sign * (hours * 60 + minutes : Nat))

theorem guard_eq_some {c : Prop} [Decidable c] {a : Unit} (h : (guard c : Reader Unit) text = some (a, rest)) :
    c ∧ text = rest := by
  unfold guard at h
  split at h
  · rename_i hc
    exact ⟨hc, (Prod.mk.inj (Option.some.inj h)).2⟩
  · cases h

theorem signedOffset_eq_some {sign offset : Int} (h : signedOffset sign text = some (offset, rest)) :
    ∃ hours minutes, minutes < 60 ∧ offset = sign * (hours * 60 + minutes : Nat) ∧ rest = [] ∧
      text = digits 2 hours ++ digits 2 minutes := by
  obtain ⟨hours, _, hhours, h⟩ := bind_eq_some h
  obtain ⟨minutes, left, hminutes, h⟩ := bind_eq_some h
  obtain ⟨_, _, hbelow, h⟩ := bind_eq_some h
  obtain ⟨hbelow, hleft⟩ := guard_eq_some hbelow
  rw [← hleft, get_bind] at h
  obtain ⟨_, _, hend, h⟩ := bind_eq_some h
  obtain ⟨hend, hrest⟩ := guard_eq_some hend
  obtain ⟨rfl, rfl⟩ := Prod.mk.inj (Option.some.inj h)
  have hempty := List.isEmpty_iff.mp hend
  refine ⟨hours, minutes, hbelow, rfl, hrest ▸ hempty, ?_⟩
  rw [(number_eq_some.mp hhours).2, (number_eq_some.mp hminutes).2, hempty, List.append_nil]

theorem offsetAtEnd_eq_some {offset : Int} (h : offsetAtEnd text = some (offset, rest))
    (hoffset : offset.natAbs < 24 * 60) : rest = [] ∧ Zone offset text := by
  have hread := h
  rw [offsetAtEnd, get_bind] at h
  split at h
  · rename_i after
    cases after with
    | nil =>
      obtain ⟨rfl, rfl⟩ := Prod.mk.inj (Option.some.inj hread)
      exact ⟨rfl, .universal⟩
    | cons => cases hread
  · rename_i after
    have hread : signedOffset 1 after = some (offset, rest) := hread
    obtain ⟨hours, minutes, hminutes, rfl, rfl, rfl⟩ := signedOffset_eq_some hread
    rw [one_mul] at hoffset ⊢
    exact ⟨rfl, .ahead (by omega) hminutes⟩
  · rename_i after
    have hread : signedOffset (-1) after = some (offset, rest) := hread
    obtain ⟨hours, minutes, hminutes, rfl, rfl, rfl⟩ := signedOffset_eq_some hread
    rw [neg_one_mul] at hoffset ⊢
    exact ⟨rfl, .behind (by omega) hminutes⟩
  · cases h

/-! ## Texts that are read -/

theorem parseWith_eq_ok_iff {reader : Reader Time} :
    parseWith reader text = .ok t ↔ ∃ rest, reader text = some (t, rest) ∧ t.IsValid := by
  unfold parseWith
  constructor
  · intro h
    split at h
    · rename_i found hfound
      obtain rfl := Except.ok.inj h
      obtain ⟨⟨read, rest⟩, hread, hcheck⟩ := Option.bind_eq_some_iff.mp hfound
      obtain ⟨hvalid, hsame⟩ := Option.ite_none_right_eq_some.mp hcheck
      obtain rfl := Option.some.inj hsame
      exact ⟨rest, hread, hvalid⟩
    · cases h
  · rintro ⟨rest, hread, hvalid⟩
    exact parseWith_eq_ok hread hvalid

/-- Two digits state the year from 1950 to 2049 that ends in them. -/
theorem fullYear_spec {year : Nat} (h : year < 100) :
    1950 ≤ (if 50 ≤ year then 1900 + year else 2000 + year) ∧
      (if 50 ≤ year then 1900 + year else 2000 + year) < 2050 ∧
      (if 50 ≤ year then 1900 + year else 2000 + year) % 100 = year := by
  split <;> omega

theorem shortText_of_readShort (h : readShort text = some (t, rest)) (hoffset : t.offset.natAbs < 24 * 60) :
    ShortText t text := by
  obtain ⟨year, _, hyear, h⟩ := bind_eq_some h
  obtain ⟨month, _, hmonth, h⟩ := bind_eq_some h
  obtain ⟨day, _, hday, h⟩ := bind_eq_some h
  obtain ⟨hour, _, hhour, h⟩ := bind_eq_some h
  obtain ⟨minute, _, hminute, h⟩ := bind_eq_some h
  obtain ⟨second, zone, hsecond, h⟩ := bind_eq_some h
  obtain ⟨offset, _, hzone, h⟩ := bind_eq_some h
  obtain ⟨rfl, rfl⟩ := Prod.mk.inj (Option.some.inj h)
  obtain ⟨hbelow, rfl⟩ := number_eq_some.mp hyear
  obtain ⟨-, rfl⟩ := number_eq_some.mp hmonth
  obtain ⟨-, rfl⟩ := number_eq_some.mp hday
  obtain ⟨-, rfl⟩ := number_eq_some.mp hhour
  obtain ⟨-, rfl⟩ := number_eq_some.mp hminute
  obtain ⟨-, hzone⟩ := offsetAtEnd_eq_some hzone hoffset
  obtain ⟨hfrom, hto, hcentury⟩ := fullYear_spec hbelow
  generalize (if 50 ≤ year then 1900 + year else 2000 + year) = full at hcentury hfrom hto ⊢
  obtain rfl := hcentury
  obtain ⟨-, rfl⟩ | ⟨rfl, rfl, -⟩ := optionalNumber_eq_some hsecond
  · exact .mk hfrom hto (.written second) hzone
  · exact @ShortText.mk _ [] _ hfrom hto .omitted hzone

theorem parseShort_eq_ok_iff : parseShort text = .ok t ↔ ShortText t text ∧ t.InCalendar := by
  constructor
  · intro h
    obtain ⟨rest, hread, hvalid⟩ := parseWith_eq_ok_iff.mp h
    obtain ⟨hcalendar, hoffset⟩ := isValid_iff.mp hvalid
    exact ⟨shortText_of_readShort hread hoffset, hcalendar⟩
  · rintro ⟨htext, hcalendar⟩
    have hoffset : t.offset.natAbs < 24 * 60 := by
      obtain ⟨_, _, _, hzone⟩ := htext
      exact hzone.natAbs_lt
    exact parseShort_eq_ok htext (isValid_iff.mpr ⟨hcalendar, hoffset⟩)

theorem Fraction.head?_append {fraction : Bytes} (h : Fraction fraction)
    (hrest : rest.head?.any Syntax.isDigit = false) :
    (fraction ++ rest).head?.any Syntax.isDigit = false := by
  cases h with
  | absent => exact hrest
  | places hmark => rcases hmark with rfl | rfl <;> rfl

theorem wholeClock_of_optionalNumber {minute second : Nat} {afterMinute afterSecond : Bytes}
    (hminute : optionalNumber text = some (minute, afterMinute))
    (hsecond : optionalNumber afterMinute = some (second, afterSecond)) :
    ∃ clock, WholeClock minute second clock ∧ text = clock ++ afterSecond := by
  obtain ⟨-, rfl⟩ | ⟨rfl, rfl, hnone⟩ := optionalNumber_eq_some hminute
  · obtain ⟨-, rfl⟩ | ⟨rfl, rfl, -⟩ := optionalNumber_eq_some hsecond
    · exact ⟨_, .second minute second, (List.append_assoc ..).symm⟩
    · exact ⟨_, .minute minute, rfl⟩
  · -- A minute that is left out leaves no digit for the second.
    obtain ⟨-, rfl⟩ | ⟨rfl, rfl, -⟩ := optionalNumber_eq_some hsecond
    · rw [head?_digits_append] at hnone
      cases hnone
    · exact ⟨[], .hour, rfl⟩

theorem WholeClock.exists_read {minute second : Nat} {clock : Bytes} (h : WholeClock minute second clock)
    (hminute : minute < 100) (hsecond : second < 100) (hrest : rest.head?.any Syntax.isDigit = false) :
    ∃ afterMinute, optionalNumber (clock ++ rest) = some (minute, afterMinute) ∧
      optionalNumber afterMinute = some (second, rest) := by
  have hnone := Optional.omitted.optionalNumber_append (by decide) hrest
  cases h with
  | hour => exact ⟨rest, hnone, hnone⟩
  | minute => exact ⟨rest, (Optional.written minute).optionalNumber_append hminute hrest, hnone⟩
  | second =>
    refine ⟨digits 2 second ++ rest, ?_, (Optional.written second).optionalNumber_append hsecond hrest⟩
    rw [List.append_assoc, optionalNumber, get_bind, if_pos (head?_digits_append 1 minute _)]
    exact number_digits hminute _

theorem longForm_of_readLong (h : readLong text = some (t, rest)) (hoffset : t.offset.natAbs < 24 * 60) :
    LongForm (fun _ _ => True) t text := by
  obtain ⟨year, _, hyear, h⟩ := bind_eq_some h
  obtain ⟨month, _, hmonth, h⟩ := bind_eq_some h
  obtain ⟨day, _, hday, h⟩ := bind_eq_some h
  obtain ⟨hour, _, hhour, h⟩ := bind_eq_some h
  obtain ⟨minute, _, hminute, h⟩ := bind_eq_some h
  obtain ⟨second, _, hsecond, h⟩ := bind_eq_some h
  obtain ⟨_, zone, hskip, h⟩ := bind_eq_some h
  rw [get_bind] at h
  obtain ⟨offset, hzone, rfl⟩ : ∃ offset, (offset.natAbs < 24 * 60 →
      Zone offset zone ∨ offset = 0 ∧ zone = []) ∧
      (⟨year, month, day, hour, minute, second, offset⟩ : Time) = t := by
    split at h
    · rename_i hend
      exact ⟨0, fun _ => .inr ⟨rfl, List.isEmpty_iff.mp hend⟩, (Prod.mk.inj (Option.some.inj h)).1⟩
    · obtain ⟨offset, _, hzone, h⟩ := bind_eq_some h
      exact ⟨offset, fun hoffset => .inl (offsetAtEnd_eq_some hzone hoffset).2,
        (Prod.mk.inj (Option.some.inj h)).1⟩
  obtain ⟨hbelow, rfl⟩ := number_eq_some.mp hyear
  obtain ⟨-, rfl⟩ := number_eq_some.mp hmonth
  obtain ⟨-, rfl⟩ := number_eq_some.mp hday
  obtain ⟨-, rfl⟩ := number_eq_some.mp hhour
  obtain ⟨clock, hclock, rfl⟩ := wholeClock_of_optionalNumber hminute hsecond
  obtain ⟨fraction, hfraction, rfl⟩ := skipFraction_eq_some hskip
  exact .mk hbelow hclock hfraction trivial (hzone hoffset)

theorem LongForm.readLong_eq {allowed : Bytes → Bytes → Prop} (h : LongForm allowed t text)
    (hvalid : t.IsValid) : readLong text = some (t, []) := by
  have ⟨_, _, _, _, _, hminute, hsecond, _⟩ := hvalid
  obtain @⟨clock, fraction, zone, hyear, hclock, hfraction, -, hzone⟩ := h
  have hend := endsClock_of_zone hzone
  obtain ⟨afterMinute, hreadMinute, hreadSecond⟩ :=
    hclock.exists_read (by omega) (by omega) (hfraction.head?_append hend.1)
  exact readLong_append hyear hvalid hreadMinute hreadSecond (hfraction.skipFraction_append hend) hzone

theorem LongForm.natAbs_lt {allowed : Bytes → Bytes → Prop} (h : LongForm allowed t text) :
    t.offset.natAbs < 24 * 60 := by
  obtain ⟨_, _, _, _, hzone | ⟨hzero, -⟩⟩ := h
  · exact hzone.natAbs_lt
  · rw [hzero]
    decide

/-- A text is read whatever stands before its fraction. -/
theorem parseLong_eq_ok_iff :
    parseLong text = .ok t ↔ LongForm (fun _ _ => True) t text ∧ t.InCalendar := by
  constructor
  · intro h
    obtain ⟨rest, hread, hvalid⟩ := parseWith_eq_ok_iff.mp h
    obtain ⟨hcalendar, hoffset⟩ := isValid_iff.mp hvalid
    exact ⟨longForm_of_readLong hread hoffset, hcalendar⟩
  · rintro ⟨htext, hcalendar⟩
    have hvalid := isValid_iff.mpr ⟨hcalendar, htext.natAbs_lt⟩
    exact parseWith_eq_ok (htext.readLong_eq hvalid) hvalid

/-! ## Stray fractions -/

theorem LongForm.mono {allowed other : Bytes → Bytes → Prop} (h : LongForm allowed t text)
    (hsub : ∀ clock fraction, allowed clock fraction → other clock fraction) : LongForm other t text := by
  obtain ⟨hyear, hclock, hfraction, hallowed, hzone⟩ := h
  exact .mk hyear hclock hfraction (hsub _ _ hallowed) hzone

theorem WholeClock.isDigit {minute second : Nat} {clock : Bytes} (h : WholeClock minute second clock) :
    ∀ b ∈ clock, Syntax.isDigit b = true := by
  have hdigits (n : Nat) : ∀ b ∈ digits 2 n, Syntax.isDigit b = true := List.all_eq_true.mp (all_digits 2 n)
  cases h with
  | hour => simp
  | minute => exact hdigits _
  | second => exact List.forall_mem_append.mpr ⟨hdigits _, hdigits _⟩

/-- A text is cut in one way only into digits and what follows them. -/
theorem digits_append_inj {first second after following : Bytes}
    (hfirst : ∀ b ∈ first, Syntax.isDigit b = true) (hsecond : ∀ b ∈ second, Syntax.isDigit b = true)
    (hafter : after.head?.any Syntax.isDigit = false) (hfollowing : following.head?.any Syntax.isDigit = false)
    (h : first ++ after = second ++ following) : first = second ∧ after = following := by
  have hrest : after = following := by
    calc after = (first ++ after).dropWhile Syntax.isDigit := by
          rw [List.dropWhile_append_of_pos hfirst, dropWhile_isDigit hafter]
      _ = (second ++ following).dropWhile Syntax.isDigit := by rw [h]
      _ = following := by rw [List.dropWhile_append_of_pos hsecond, dropWhile_isDigit hfollowing]
  rw [hrest] at h
  exact ⟨List.append_cancel_right h, hrest⟩

theorem Fraction.append_inj {first second zone other : Bytes} (hfirst : Fraction first)
    (hsecond : Fraction second) (hzone : EndsClock zone) (hother : EndsClock other)
    (h : first ++ zone = second ++ other) : first = second := by
  -- What follows a fraction does not begin with the mark of one.
  have hmark {mark : UInt8} {places zone other : Bytes} (hmark : mark = 46 ∨ mark = 44)
      (hzone : EndsClock zone) (h : zone = mark :: (places ++ other)) : False := by
    obtain ⟨hpoint, hcomma⟩ := hzone.2 mark (by rw [h]; rfl)
    rcases hmark with hmark | hmark
    · exact hpoint hmark
    · exact hcomma hmark
  cases hfirst with
  | absent =>
    cases hsecond with
    | absent => rfl
    | places hsecond => exact (hmark hsecond hzone h).elim
  | places hfirst hdigits =>
    cases hsecond with
    | absent => exact (hmark hfirst hother h.symm).elim
    | places _ hdigits' =>
      obtain ⟨rfl, hplaces⟩ := List.cons.inj h
      rw [(digits_append_inj hdigits hdigits' hzone.1 hother.1 hplaces).1]

/-- What a text holds behind its hour. -/
theorem LongForm.exists_parts {allowed : Bytes → Bytes → Prop} (h : LongForm allowed t text) :
    ∃ hour clock fraction zone, hour.length = 10 ∧ (∀ b ∈ clock, Syntax.isDigit b = true) ∧
      Fraction fraction ∧ EndsClock zone ∧ allowed clock fraction ∧
      text = hour ++ (clock ++ (fraction ++ zone)) := by
  obtain @⟨clock, fraction, zone, -, hclock, hfraction, hallowed, hzone⟩ := h
  refine ⟨digits 4 t.year ++ (digits 2 t.month ++ (digits 2 t.day ++ digits 2 t.hour)), clock, fraction, zone,
    ?_, hclock.isDigit, hfraction, endsClock_of_zone hzone, hallowed, ?_⟩
  · simp only [List.length_append, length_digits]
  · simp only [List.append_assoc]

/-- The clock and the fraction of a text are the same in all times that it states. -/
theorem LongForm.exists_allowed {allowed other : Bytes → Bytes → Prop} (h : LongForm allowed t text)
    (h' : LongForm other u text) : ∃ clock fraction, allowed clock fraction ∧ other clock fraction := by
  obtain ⟨hour, clock, fraction, zone, hhour, hclock, hfraction, hzone, hallowed, htext⟩ := h.exists_parts
  obtain ⟨hour', clock', fraction', zone', hhour', hclock', hfraction', hzone', hallowed', htext'⟩ :=
    h'.exists_parts
  obtain ⟨-, htail⟩ := List.append_inj (htext.symm.trans htext') (hhour.trans hhour'.symm)
  obtain ⟨rfl, hend⟩ := digits_append_inj hclock hclock' (hfraction.head?_append hzone.1)
    (hfraction'.head?_append hzone'.1) htail
  obtain rfl := hfraction.append_inj hfraction' hzone hzone' hend
  exact ⟨clock, fraction, hallowed, hallowed'⟩

/-- A text is read as the grammar says exactly if it states no time with a stray fraction. If it does, it is read
as that time. -/
theorem followsGrammar_iff (text : Bytes) :
    (FollowsGrammar text ↔ ∀ t, LongForm IsStray t text → ¬ t.InCalendar) ∧
      ∀ t, LongForm IsStray t text → t.InCalendar → parseLong text = .ok t := by
  have hstray (t : Time) (ht : LongForm IsStray t text) (hcalendar : t.InCalendar) :
      parseLong text = .ok t :=
    parseLong_eq_ok_iff.mpr ⟨ht.mono fun _ _ _ => trivial, hcalendar⟩
  refine ⟨⟨fun h t ht hcalendar => ?_, fun h t => ⟨parseShort_eq_ok_iff, ?_⟩⟩, hstray⟩
  · obtain ⟨hform, -⟩ := (h t).2.mp (hstray t ht hcalendar)
    obtain ⟨clock, fraction, hnot, hof⟩ := ht.exists_allowed hform
    exact hnot hof
  · rw [parseLong_eq_ok_iff]
    refine and_congr_left fun hcalendar => ⟨fun ht => ?_, fun ht => ht.mono fun _ _ _ => trivial⟩
    obtain @⟨clock, fraction, zone, hyear, hclock, hfraction, -, hzone⟩ := ht
    by_cases hof : OfSecond clock fraction
    · exact .mk hyear hclock hfraction hof hzone
    · exact (h t (.mk hyear hclock hfraction hof hzone) hcalendar).elim

/-- Eight o'clock on a day in June. -/
def juneMorning : Time := ⟨2023, 6, 15, 8, 0, 0, 0⟩

/-- A text that goes on with half an hour is read as the full hour. -/
theorem not_forall_followsGrammar : ¬ ∀ text, FollowsGrammar text := by
  intro h
  have hread : parseLong (.ofAscii "2023061508.5Z") = .ok juneMorning := by decide
  have htext : Bytes.ofAscii "2023061508.5Z" = digits 4 juneMorning.year ++ (digits 2 juneMorning.month ++
      (digits 2 juneMorning.day ++ (digits 2 juneMorning.hour ++ ([] ++ ([46, 53] ++ [90]))))) := by decide
  have hnot : IsStray [] [46, 53] := fun h => absurd (h (List.cons_ne_nil _ _)).2 (by decide)
  have hstray : LongForm IsStray juneMorning (.ofAscii "2023061508.5Z") := by
    rw [htext]
    exact .mk (by decide) .hour (.places (.inl rfl) (List.forall_mem_singleton.mpr rfl)) hnot (.inl .universal)
  obtain ⟨hform, -⟩ := (h _ juneMorning).2.mp hread
  obtain ⟨clock, fraction, hnot, hof⟩ := hstray.exists_allowed hform
  exact hnot hof

end Folio.Asn1.Time
