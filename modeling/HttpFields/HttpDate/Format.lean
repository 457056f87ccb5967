import HttpFields.Calendar.Basic
import HttpFields.Token

/-!
# `HttpFields.HttpDate.Format` — the three notations of a date

A date is written in one of three notations, which name the same things in different orders:

* fixed — `Sun, 06 Nov 1994 08:49:37 GMT`, the only one that is written today;
* dashed — `Sunday, 06-Nov-94 08:49:37 GMT`, with a year of two digits;
* clock — `Sun Nov  6 08:49:37 1994`, with a blank in place of the first digit of a day below ten.

Reading looks at the grammar twice: once for whether a text is a date at all, and then for its notation, which says how
to take it apart. What the parts stand for is the same for all three, but for a year of two digits.
-/

namespace HttpFields.HttpDate

open Rule

/-! ## Names -/

/-- The names of the days of the week, from Monday. -/
def dayNames : List Text :=
  ["Mon".toList, "Tue".toList, "Wed".toList, "Thu".toList, "Fri".toList, "Sat".toList, "Sun".toList]

/-- The full names of the days of the week, from Monday. -/
def fullDayNames : List Text :=
  ["Monday".toList, "Tuesday".toList, "Wednesday".toList, "Thursday".toList, "Friday".toList, "Saturday".toList,
    "Sunday".toList]

/-- The names of the months. -/
def monthNames : List Text :=
  ["Jan".toList, "Feb".toList, "Mar".toList, "Apr".toList, "May".toList, "Jun".toList, "Jul".toList, "Aug".toList,
    "Sep".toList, "Oct".toList, "Nov".toList, "Dec".toList]

/-! ## Grammar -/

/-- Any one of the given names. -/
def anyOf (names : List Text) : Rule := .choice (names.map literal)

/-- The given number of digits. -/
def digits (count : Nat) : Rule := exactly count CharClass.digit

/-- A time of day, two digits for each of its parts. -/
def timeOfDay : Rule := .sequence [digits 2, ':', digits 2, ':', digits 2]

/-- The fixed notation. -/
def fixed : Rule :=
  .sequence [anyOf dayNames, ',', ' ', digits 2, ' ', anyOf monthNames, ' ', digits 4, ' ', timeOfDay, ' ',
    literal "GMT".toList]

/-- The dashed notation. -/
def dashed : Rule :=
  .sequence [anyOf fullDayNames, ',', ' ', digits 2, '-', anyOf monthNames, '-', digits 2, ' ', timeOfDay, ' ',
    literal "GMT".toList]

/-- The clock notation. -/
def clock : Rule :=
  .sequence [anyOf dayNames, ' ', anyOf monthNames, ' ', .choice [digits 2, .sequence [' ', CharClass.digit]], ' ',
    timeOfDay, ' ', digits 4]

/-- A date in any of the three notations. -/
def grammar : Rule := .choice [fixed, dashed, clock]

/-! ## Taking a date apart -/

/-- The parts of a date, as they are written. -/
structure Parts where
  day : Text
  month : Text
  year : Text
  timeOfDay : Text

/-- The parts of a date in the fixed notation, as in `Sun, 06 Nov 1994 08:49:37 GMT`: the first four things between
    spaces, behind the comma. -/
def fixedParts? (v : Text) : Option Parts := do
  let (_, date) ← Text.cutAround? [',', ' '] v
  match date.splitOn ' ' with
  | day :: month :: year :: timeOfDay :: _ => some ⟨day, month, year, timeOfDay⟩
  | _ => none

/-- The parts of a date in the dashed notation, as in `Sunday, 06-Nov-94 08:49:37 GMT`: what is between dashes in front
    of the first space behind the comma, and what is between it and the next. -/
def dashedParts? (v : Text) : Option Parts := do
  let (_, rest) ← Text.cutAround? [',', ' '] v
  let (date, rest) ← rest.cutAt? ' '
  let timeOfDay ← (rest.splitOn ' ').head?
  match date.splitOn '-' with
  | day :: month :: year :: _ => some ⟨day, month, year, timeOfDay⟩
  | _ => none

/-- The parts of a date in the clock notation, as in `Sun Nov  6 08:49:37 1994`: the words behind the first one. -/
def clockParts? (v : Text) : Option Parts :=
  match v.words.drop 1 with
  | month :: day :: timeOfDay :: year :: _ => some ⟨day, month, year, timeOfDay⟩
  | _ => none

/-! ## What the parts stand for -/

/-- The year from 1950 to 2049 that ends with two given digits. -/
def fullYear (year : Int32) : Int32 := if year < 50 then 2000 + year else 1900 + year

/-- The instant that the parts of a date stand for, if the calendar has it. -/
def Parts.instant? (parts : Parts) (twoDigitYear : Bool) (calendar : Calendar) : Option Instant := do
  let year ← Decimal.toInt32? parts.year
  let year := if twoDigitYear then fullYear year else year
  let month ← monthNames.idxOf? parts.month
  let day ← Decimal.toUInt32? parts.day
  match parts.timeOfDay.splitOn ':' with
  | hour :: minute :: second :: _ =>
    let hour ← Decimal.toUInt32? hour
    let minute ← Decimal.toUInt32? minute
    let second ← Decimal.toUInt32? second
    let day ← calendar.day? year.toInt (month + 1) day.toNat
    calendar.instant? day hour.toNat minute.toNat second.toNat
  | _ => none

/-- The instant of a date, by the notation that it is in: the fixed one if it is in neither of the others. Its day of
    the week is not looked at. -/
def instant? (v : Text) (calendar : Calendar) : Option Instant :=
  if dashed.accepts v then (dashedParts? v).bind fun parts => parts.instant? true calendar
  else if clock.accepts v then (clockParts? v).bind fun parts => parts.instant? false calendar
  else (fixedParts? v).bind fun parts => parts.instant? false calendar

/-! ## Writing -/

/-- The pattern of the fixed notation. -/
def fixedPattern : Text := "%a, %d %b %Y %H:%M:%S GMT".toList

end HttpFields.HttpDate
