import HttpFields.Calendar.Instant
import HttpFields.Decimal

/-!
# `HttpFields.Calendar.Basic` — what dates are read and written with

Reading a date takes two things from a calendar, the days that it has and the instants of a day, and writing one takes
a third, an instant as text. A `Calendar` offers these three and nothing else, so that how a date is read and written
does not depend on how days are counted. `Calendar.gregorian` is the calendar in use.
-/

namespace HttpFields

/-- A calendar, as far as it is needed to read and write dates. -/
structure Calendar where
  /-- The days that the calendar has. -/
  Day : Type
  /-- The day of a year, of a month counted from one and with its number in the month, if the calendar has it. -/
  day? : (year : Int) → (month day : Nat) → Option Day
  /-- The instant at which a second of a day starts, if a clock shows this hour, minute and second. -/
  instant? : Day → (hour minute second : Nat) → Option Instant
  /-- An instant as text. In the pattern a percent sign and a letter stand for a part of the date or of the time of day,
      and all else for itself. -/
  format : (pattern : Text) → Instant → Text

namespace Calendar

/-! ## Patterns -/

/-- The short names of the days of the week, from Monday. -/
def weekdays : List Text :=
  ["Mon".toList, "Tue".toList, "Wed".toList, "Thu".toList, "Fri".toList, "Sat".toList, "Sun".toList]

/-- The short names of the months. -/
def months : List Text :=
  ["Jan".toList, "Feb".toList, "Mar".toList, "Apr".toList, "May".toList, "Jun".toList, "Jul".toList, "Aug".toList,
    "Sep".toList, "Oct".toList, "Nov".toList, "Dec".toList]

/-- A year with at least four digits, and with a sign if it is negative or needs more of them. -/
def writeYear (year : Int) : Text :=
  if 0 ≤ year ∧ year ≤ 9999 then Decimal.padded 4 year.toNat
  else (if year < 0 then '-' else '+') :: Decimal.padded 4 year.natAbs

/-- The part of an instant that a letter behind a percent sign stands for. -/
def field (i : Instant) : Char → Text
  | 'a' => weekdays.get (CalendarDate.weekday i.day)
  | 'd' => Decimal.padded 2 i.date.day
  | 'b' => months.get i.date.month
  | 'Y' => writeYear i.date.year
  | 'H' => Decimal.padded 2 i.time.hour
  | 'M' => Decimal.padded 2 i.time.minute
  | 'S' => Decimal.padded 2 i.time.second
  | letter => ['%', letter]

/-- An instant as text. -/
def fill (i : Instant) : Text → Text
  | [] => []
  | '%' :: letter :: pattern => field i letter ++ fill i pattern
  | c :: pattern => c :: fill i pattern

/-! ## The calendar in use -/

/-- The Gregorian calendar, carried on to all years before and after. -/
def gregorian : Calendar where
  Day := { date : CalendarDate // date.isValid = true }
  day?
    | _, 0, _ => none
    | year, month + 1, day =>
      if hmonth : month < 12 then
        let date : CalendarDate := ⟨year, ⟨month, hmonth⟩, day⟩
        if hdate : date.isValid = true then some ⟨date, hdate⟩ else none
      else none
  instant? date hour minute second := Instant.ofDateTime? date ⟨hour, minute, second⟩
  format pattern i := fill i pattern

end Calendar

end HttpFields
