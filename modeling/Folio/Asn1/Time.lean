import Folio.Asn1.Error
import Folio.Syntax.Character

/-!
# Points in time

A point in time is a date of the Gregorian calendar, a time of day and an offset from universal
time. It is written with two digits for the year, which then lies in 1950 to 2049, or with four.
-/

namespace Folio.Asn1

/-- A point in time. -/
structure Time where
  year : Nat
  month : Nat
  day : Nat
  hour : Nat
  minute : Nat
  second : Nat
  /-- By how many minutes the time is ahead of universal time. -/
  offset : Int
deriving DecidableEq

namespace Time

/-- Whether a year has a leap day. -/
def isLeapYear (year : Nat) : Bool := (year % 4 == 0 && year % 100 != 0) || year % 400 == 0

/-- The number of days of a month. -/
def daysInMonth (year month : Nat) : Nat :=
  if month = 2 then if isLeapYear year then 29 else 28
  else if month ∈ [4, 6, 9, 11] then 30
  else 31

/-- Whether the fields lie in their ranges. A minute may have a leap second. -/
def IsValid (t : Time) : Prop :=
  1 ≤ t.month ∧ t.month ≤ 12 ∧ 1 ≤ t.day ∧ t.day ≤ daysInMonth t.year t.month ∧
    t.hour < 24 ∧ t.minute < 60 ∧ t.second ≤ 60 ∧ t.offset.natAbs < 24 * 60

instance (t : Time) : Decidable t.IsValid := by unfold IsValid; infer_instance

/-- The time, if it is valid. -/
def check? (t : Time) : Option Time := if t.IsValid then some t else none

/-- A step that reads from the front of a text. -/
abbrev Reader := StateT Bytes Option

/-- The number written with the next `count` digits. -/
def number (count : Nat) : Reader Nat := fun text => do
  let (digits, rest) ← text.splitAt? count
  if digits.all Syntax.isDigit then
    some (digits.foldl (fun n d => n * 10 + (d - 48).toNat) 0, rest)
  else none

/-- The number written with the next two digits, or zero if no digit comes next. -/
def optionalNumber : Reader Nat := do
  if (← get).head?.any Syntax.isDigit then number 2 else pure 0

/-- The offset at the end of a text: the letter `Z`, or a sign, hours and minutes. -/
def offsetAtEnd : Reader Int := do
  let sign : Int ← match ← get with
    | 90 :: rest => do
      set rest
      pure 0
    | 43 :: rest => do
      set rest
      pure 1
    | 45 :: rest => do
      set rest
      pure (-1)
    | _ => failure
  let minutes ←
    if sign = 0 then pure 0
    else do
      let hours ← number 2
      let minutes ← number 2
      guard (minutes < 60)
      pure (hours * 60 + minutes)
  guard (← get).isEmpty
  pure (sign * minutes)

/-- The time that a text with a year of two digits states. -/
def readShort : Reader Time := do
  let year ← number 2
  let month ← number 2
  let day ← number 2
  let hour ← number 2
  let minute ← number 2
  let second ← optionalNumber
  let offset ← offsetAtEnd
  pure ⟨if 50 ≤ year then 1900 + year else 2000 + year, month, day, hour, minute, second, offset⟩

/-- Skips a fraction of a second, which a point or a comma begins. -/
def skipFraction : Reader Unit :=
  modify fun text =>
    match text with
    | b :: rest => if b = 46 ∨ b = 44 then rest.dropWhile Syntax.isDigit else b :: rest
    | [] => []

/-- The time that a text with a year of four digits states. Without an offset it is universal. -/
def readLong : Reader Time := do
  let year ← number 4
  let month ← number 2
  let day ← number 2
  let hour ← number 2
  let minute ← optionalNumber
  let second ← optionalNumber
  skipFraction
  let offset ← if (← get).isEmpty then pure 0 else offsetAtEnd
  pure ⟨year, month, day, hour, minute, second, offset⟩

/-- The valid time that a reader finds in a text. -/
def parseWith (reader : Reader Time) (text : Bytes) : Except Error Time :=
  match (reader text).bind fun (t, _) => t.check? with
  | some t => .ok t
  | none => .error .invalidTime

/-- The time that a text with a year of two digits states, if it is valid. -/
def parseShort (text : Bytes) : Except Error Time := parseWith readShort text

/-- The time that a text with a year of four digits states, if it is valid. -/
def parseLong (text : Bytes) : Except Error Time := parseWith readLong text

/-- The number of days from the first of January 1970 to a date. Years are counted from March, so
that a leap day is the last day of its year. -/
def dayNumber (year month day : Int) : Int :=
  let year := if month ≤ 2 then year - 1 else year
  let era := year / 400
  let yearOfEra := year - era * 400
  let monthIndex := if month > 2 then month - 3 else month + 9
  let dayOfYear := (153 * monthIndex + 2) / 5 + day - 1
  let dayOfEra := yearOfEra * 365 + yearOfEra / 4 - yearOfEra / 100 + dayOfYear
  era * 146097 + dayOfEra - 719468

/-- The number of seconds since the beginning of 1970. -/
def timestamp (t : Time) : Int :=
  dayNumber t.year t.month t.day * 86400 + t.hour * 3600 + t.minute * 60 + t.second - t.offset * 60

/-- A number with at least `width` digits. -/
def padded (width n : Nat) : String :=
  let digits := toString n
  "".pushn '0' (width - digits.length) ++ digits

/-- The time as text. -/
def text (t : Time) : String :=
  let date := padded 4 t.year ++ "-" ++ padded 2 t.month ++ "-" ++ padded 2 t.day
  let clock := padded 2 t.hour ++ ":" ++ padded 2 t.minute ++ ":" ++ padded 2 t.second
  let minutes := t.offset.natAbs
  let zone :=
    if t.offset = 0 then "Z"
    else (if t.offset < 0 then "-" else "+") ++ padded 2 (minutes / 60) ++ ":" ++
      padded 2 (minutes % 60)
  date ++ "T" ++ clock ++ zone

end Time

end Folio.Asn1
