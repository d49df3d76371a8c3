import Folio.Proofs.Asn1.Grammar

/-!
# The days of the calendar

The calendar as a walk from each date to the next. Main statement: `timestamp_counts_days`, the timestamp of
a time counts the days of this walk from the first of January 1970, so times of one offset are ordered by
their timestamps as by their fields.

The closed formula for the number of a day is opened once, in `number_eq_leapDays`. From it follows how the
first days of two months in a row differ (`monthStart_succ`), and from that all the rest: the months are
counted from the year 0 on, so the walk and the order go over the turn of the year as over any other.
-/

namespace Folio.Asn1

/-- A date. -/
structure Date where
  year : Nat
  month : Nat
  day : Nat
deriving DecidableEq

namespace Date

/-- Whether the month has the day and the year the month. -/
structure IsValid (d : Date) : Prop where
  one_le_month : 1 ≤ d.month
  month_le : d.month ≤ 12
  one_le_day : 1 ≤ d.day
  day_le : d.day ≤ Time.daysInMonth d.year d.month

/-- The day after a date. -/
def next (d : Date) : Date :=
  if d.day < Time.daysInMonth d.year d.month then { d with day := d.day + 1 }
  else if d.month < 12 then ⟨d.year, d.month + 1, 1⟩
  else ⟨d.year + 1, 1, 1⟩

/-- Whether a date comes `n` days after another one, which is before it if `n` is negative. -/
def IsDaysAfter (n : Int) (start d : Date) : Prop :=
  match n with
  | .ofNat n => next^[n] start = d
  | .negSucc n => next^[n + 1] d = start

/-- The first of January 1970. -/
def epoch : Date := ⟨1970, 1, 1⟩

/-- The number of days from the first of January 1970 to a date, as the timestamp has it. -/
def number (d : Date) : Int := Time.dayNumber d.year d.month d.day

variable {d e : Date} {year month day : Nat}

/-! ## The first days of months -/

/-- The number of leap days in the years up to the given one. -/
def leapDays (year : Int) : Int := year / 4 - year / 100 + year / 400

theorem eraDays_eq (year : Int) :
    year / 400 * 146097 + ((year - year / 400 * 400) * 365 + (year - year / 400 * 400) / 4 -
      (year - year / 400 * 400) / 100) = 365 * year + leapDays year := by
  unfold leapDays
  omega

theorem leapDays_eq (year : Nat) :
    leapDays year = leapDays (year - 1) + if Time.isLeapYear year = true then 1 else 0 := by
  unfold leapDays
  split
  · rename_i hleap
    rw [Time.isLeapYear_iff, Time.IsLeap] at hleap
    omega
  · rename_i hleap
    rw [Time.isLeapYear_iff, Time.IsLeap] at hleap
    omega

/-- The number of days of a common year before a month. -/
def daysBefore (month : Nat) : Nat := (Time.monthLengths.take (month - 1)).sum

/-- The leap day counts from March on. -/
theorem number_eq_leapDays (hfrom : 1 ≤ month) (hto : month ≤ 12) :
    number ⟨year, month, day⟩ = 365 * year + leapDays (if month ≤ 2 then year - 1 else year) +
      daysBefore month + day - 719528 := by
  have hyear := eraDays_eq year
  have hlast := eraDays_eq (year - 1)
  simp only [number, Time.dayNumber]
  interval_cases month <;> simp [daysBefore, Time.monthLengths] <;> omega

theorem number_succ_month (hfrom : 1 ≤ month) (hto : month < 12) :
    number ⟨year, month + 1, 1⟩ = number ⟨year, month, 1⟩ + Time.daysInMonth year month := by
  have hleap := leapDays_eq year
  rw [number_eq_leapDays hfrom hto.le, number_eq_leapDays (Nat.succ_pos _) hto]
  unfold Time.daysInMonth
  interval_cases month <;> simp [daysBefore, Time.monthLengths] <;> split_ifs at * <;> omega

theorem number_succ_year : number ⟨year + 1, 1, 1⟩ = number ⟨year, 12, 1⟩ + 31 := by
  rw [number_eq_leapDays (by decide) (by decide), number_eq_leapDays (by decide) (by decide)]
  simp [daysBefore, Time.monthLengths]
  omega

/-- The number of the first day of a month, the months being counted from January of the year 0. -/
def monthStart (months : Nat) : Int := number ⟨months / 12, months % 12 + 1, 1⟩

theorem monthStart_succ (months : Nat) : monthStart (months + 1) =
    monthStart months + Time.daysInMonth (months / 12) (months % 12 + 1) := by
  by_cases hlast : months % 12 = 11
  · have hyear : (months + 1) / 12 = months / 12 + 1 := by omega
    have hmonth : (months + 1) % 12 = 0 := by omega
    rw [monthStart, monthStart, hyear, hmonth, hlast]
    exact number_succ_year
  · have hyear : (months + 1) / 12 = months / 12 := by omega
    have hmonth : (months + 1) % 12 = months % 12 + 1 := by omega
    rw [monthStart, monthStart, hyear, hmonth]
    exact number_succ_month (Nat.succ_pos _) (by omega)

theorem monotone_monthStart : Monotone monthStart := by
  apply monotone_nat_of_le_succ
  intro months
  rw [monthStart_succ]
  exact Int.le_add_of_nonneg_right (Int.natCast_nonneg _)

/-! ## Dates in their months -/

/-- The number of months from January of the year 0 to the month of a date. -/
def months (d : Date) : Nat := 12 * d.year + (d.month - 1)

theorem months_spec (hfrom : 1 ≤ d.month) (hto : d.month ≤ 12) :
    d.months / 12 = d.year ∧ d.months % 12 + 1 = d.month := by
  unfold months
  omega

theorem number_eq (hfrom : 1 ≤ d.month) (hto : d.month ≤ 12) :
    d.number = monthStart d.months + d.day - 1 := by
  obtain ⟨hyear, hmonth⟩ := months_spec hfrom hto
  rw [monthStart, hyear, hmonth]
  simp only [number, Time.dayNumber]
  omega

theorem IsValid.number_lt (h : d.IsValid) : d.number < monthStart (d.months + 1) := by
  obtain ⟨hyear, hmonth⟩ := months_spec h.one_le_month h.month_le
  have hday := h.day_le
  rw [monthStart_succ, hyear, hmonth, number_eq h.one_le_month h.month_le]
  omega

theorem one_le_daysInMonth (year month : Nat) : 1 ≤ Time.daysInMonth year month := by
  unfold Time.daysInMonth
  split_ifs <;> decide

theorem IsValid.next (h : d.IsValid) : d.next.IsValid := by
  unfold Date.next
  split
  · rename_i hday
    exact ⟨h.one_le_month, h.month_le, Nat.succ_pos _, hday⟩
  · split
    · rename_i hmonth
      exact ⟨Nat.succ_pos _, hmonth, Nat.le_refl 1, one_le_daysInMonth _ _⟩
    · exact ⟨Nat.le_refl 1, Nat.le_add_left 1 11, Nat.le_refl 1, one_le_daysInMonth _ _⟩

theorem months_next (h : d.IsValid) :
    d.next.months = d.months ∧ d.next.day = d.day + 1 ∨
      d.day = Time.daysInMonth d.year d.month ∧ d.next.months = d.months + 1 ∧ d.next.day = 1 := by
  have hfrom := h.one_le_month
  have hto := h.month_le
  have hday := h.day_le
  unfold Date.next
  split
  · exact .inl ⟨rfl, rfl⟩
  · refine .inr ⟨by omega, ?_⟩
    split
    · exact ⟨by simp only [months]; omega, rfl⟩
    · exact ⟨by simp only [months]; omega, rfl⟩

/-- The next day has the next number. -/
theorem IsValid.number_next (h : d.IsValid) : d.next.number = d.number + 1 := by
  obtain ⟨hyear, hmonth⟩ := months_spec h.one_le_month h.month_le
  rw [number_eq h.next.one_le_month h.next.month_le, number_eq h.one_le_month h.month_le]
  rcases months_next h with ⟨hmonths, hday⟩ | ⟨hlast, hmonths, hday⟩
  · rw [hmonths, hday]
    omega
  · rw [hmonths, hday, monthStart_succ, hyear, hmonth]
    omega

theorem IsValid.number_iterate (h : d.IsValid) (n : Nat) :
    (Date.next^[n] d).IsValid ∧ (Date.next^[n] d).number = d.number + n := by
  induction n generalizing d with
  | zero => exact ⟨h, (Int.add_zero _).symm⟩
  | succ n ih =>
    obtain ⟨hvalid, hnumber⟩ := ih h.next
    rw [Function.iterate_succ_apply]
    refine ⟨hvalid, ?_⟩
    rw [hnumber, h.number_next]
    omega

/-! ## The order of dates -/

/-- The fields of a date, the most significant first. -/
def fields (d : Date) : List Nat := [d.year, d.month, d.day]

theorem fields_lt_iff : d.fields < e.fields ↔
    d.year < e.year ∨ d.year = e.year ∧ (d.month < e.month ∨ d.month = e.month ∧ d.day < e.day) := by
  simp [fields, List.cons_lt_cons_iff]

theorem number_lt_of_fields_lt (hd : d.IsValid) (he : e.IsValid) (h : d.fields < e.fields) :
    d.number < e.number := by
  have hfrom := hd.one_le_month
  have hto := hd.month_le
  have hfrom' := he.one_le_month
  have hnumber := number_eq hfrom' he.month_le
  have hday := he.one_le_day
  by_cases hmonths : d.months = e.months
  · rw [fields_lt_iff] at h
    unfold months at hmonths
    rw [hnumber, number_eq hfrom hto, months, months, hmonths]
    omega
  · -- a later month starts after all days of an earlier one
    have hlater : d.months + 1 ≤ e.months := by
      rw [fields_lt_iff] at h
      unfold months at hmonths ⊢
      omega
    have hstart := monotone_monthStart hlater
    have hlt := hd.number_lt
    omega

theorem number_lt_iff (hd : d.IsValid) (he : e.IsValid) : d.number < e.number ↔ d.fields < e.fields := by
  constructor
  · intro h
    by_contra hnot
    rcases lt_or_eq_of_le (not_lt.mp hnot) with hlt | heq
    · have hgt := number_lt_of_fields_lt he hd hlt
      omega
    · obtain ⟨year, month, day⟩ := d
      obtain ⟨year', month', day'⟩ := e
      simp only [fields, List.cons.injEq, and_true] at heq
      obtain ⟨rfl, rfl, rfl⟩ := heq
      exact lt_irrefl _ h
  · exact number_lt_of_fields_lt hd he

theorem eq_of_number_eq (hd : d.IsValid) (he : e.IsValid) (h : d.number = e.number) : d = e := by
  have hlt := mt (number_lt_iff hd he).mpr (by omega)
  have hgt := mt (number_lt_iff he hd).mpr (by omega)
  obtain ⟨year, month, day⟩ := d
  obtain ⟨year', month', day'⟩ := e
  have hfields := le_antisymm (not_lt.mp hgt) (not_lt.mp hlt)
  simp only [fields, List.cons.injEq, and_true] at hfields
  obtain ⟨rfl, rfl, rfl⟩ := hfields
  rfl

/-- The walk from one date to another takes as many days as their numbers differ by. -/
theorem isDaysAfter_iff (hd : d.IsValid) (he : e.IsValid) (n : Int) :
    IsDaysAfter n d e ↔ n = e.number - d.number := by
  have hwalk : ∀ {d e : Date}, d.IsValid → e.IsValid → ∀ n : Nat,
      Date.next^[n] d = e ↔ e.number = d.number + n := by
    intro d e hd he n
    obtain ⟨hvalid, hnumber⟩ := hd.number_iterate n
    constructor
    · rintro rfl
      exact hnumber
    · intro h
      exact eq_of_number_eq hvalid he (hnumber.trans h.symm)
  cases n with
  | ofNat n =>
    rw [IsDaysAfter, hwalk hd he]
    simp only [Int.ofNat_eq_natCast]
    omega
  | negSucc n =>
    rw [IsDaysAfter, hwalk he hd]
    omega

theorem isValid_epoch : epoch.IsValid := ⟨by decide, by decide, by decide, by decide⟩

theorem number_epoch : epoch.number = 0 := by decide

end Date

namespace Time

variable {t u : Time}

/-- The date of a time. -/
def date (t : Time) : Date := ⟨t.year, t.month, t.day⟩

/-- The fields of a time but for the offset, the most significant first. -/
def fields (t : Time) : List Nat := [t.year, t.month, t.day, t.hour, t.minute, t.second]

theorem IsValid.date (h : t.IsValid) : t.date.IsValid :=
  ⟨h.1, h.2.1, h.2.2.1, h.2.2.2.1⟩

/-- The number of seconds since the beginning of the day. -/
def secondOfDay (t : Time) : Nat := 3600 * t.hour + 60 * t.minute + t.second

theorem timestamp_eq (t : Time) : t.timestamp = 86400 * t.date.number + t.secondOfDay - 60 * t.offset := by
  have hnumber : t.date.number = dayNumber t.year t.month t.day := rfl
  rw [timestamp, hnumber, secondOfDay]
  omega

theorem fields_lt_iff : t.fields < u.fields ↔ t.date.fields < u.date.fields ∨ t.date = u.date ∧
    (t.hour < u.hour ∨ t.hour = u.hour ∧ (t.minute < u.minute ∨ t.minute = u.minute ∧ t.second < u.second)) := by
  rw [Date.fields_lt_iff]
  simp only [fields, date, List.cons_lt_cons_iff, Date.mk.injEq, List.lt_irrefl, and_false, or_false]
  omega

/-- Without leap seconds, the seconds of a day are fewer than a day has. -/
theorem timestamp_lt_iff (ht : t.IsValid) (hu : u.IsValid) (hoffset : u.offset = t.offset)
    (htsecond : t.second < 60) (husecond : u.second < 60) :
    t.timestamp < u.timestamp ↔ t.fields < u.fields := by
  have hdate := Date.number_lt_iff ht.date hu.date
  have hsame : t.date.number = u.date.number ↔ t.date = u.date :=
    ⟨Date.eq_of_number_eq ht.date hu.date, congrArg Date.number⟩
  obtain ⟨-, -, -, -, hthour, htminute, -⟩ := ht
  obtain ⟨-, -, -, -, huhour, huminute, -⟩ := hu
  rw [fields_lt_iff, ← hdate, ← hsame, timestamp_eq, timestamp_eq, hoffset, secondOfDay, secondOfDay]
  omega

/-- A timestamp counts the days of the calendar, so that it orders times as their fields do. -/
theorem timestamp_counts_days (ht : t.IsValid) :
    (∃ n, (∀ m, Date.IsDaysAfter m .epoch t.date ↔ m = n) ∧
      t.timestamp = 86400 * n + (3600 * t.hour + 60 * t.minute + t.second) - 60 * t.offset) ∧
    ∀ u : Time, u.IsValid → u.offset = t.offset → t.second < 60 → u.second < 60 →
      (t.timestamp < u.timestamp ↔ t.fields < u.fields) := by
  refine ⟨⟨t.date.number, fun m => ?_, ?_⟩, fun u hu => timestamp_lt_iff ht hu⟩
  · rw [Date.isDaysAfter_iff Date.isValid_epoch ht.date, Date.number_epoch, Int.sub_zero]
  · rw [timestamp_eq, secondOfDay]
    push_cast
    rfl

/-- The last second of the leap day of 1600. -/
def leapDayEnd : Time := ⟨1600, 2, 29, 23, 59, 59, -90⟩

/-- The second after it. -/
def afterLeapDay : Time := ⟨1600, 3, 1, 0, 0, 0, -90⟩

theorem timestamp_counts_days_leapDay : leapDayEnd.IsValid ∧ afterLeapDay.IsValid ∧
    (∃ n, (∀ m, Date.IsDaysAfter m .epoch ⟨1600, 2, 29⟩ ↔ m = n) ∧ n = -135081 ∧
      leapDayEnd.timestamp = 86400 * n + (3600 * 23 + 60 * 59 + 59) - 60 * -90) ∧
      (leapDayEnd.timestamp < afterLeapDay.timestamp ↔ leapDayEnd.fields < afterLeapDay.fields) := by
  have hvalid : leapDayEnd.IsValid ∧ afterLeapDay.IsValid := by decide
  obtain ⟨⟨n, hn, htimestamp⟩, horder⟩ := timestamp_counts_days hvalid.1
  have hvalue : leapDayEnd.timestamp = -11670906601 := by decide
  have hcount : leapDayEnd.timestamp = 86400 * n + (3600 * 23 + 60 * 59 + 59) - 60 * -90 := htimestamp
  exact ⟨hvalid.1, hvalid.2, ⟨n, hn, by omega, hcount⟩,
    horder afterLeapDay hvalid.2 rfl (by decide) (by decide)⟩

end Time

end Folio.Asn1
