/-!
# `HttpFields.Calendar.Date` — dates of the Gregorian calendar

Dates of the Gregorian calendar, carried on to all years before and after, and their numbering by days. The year
before year 1 is year 0.

* `CalendarDate.daysBeforeYear_succ` — the closed form for the days before a year grows by the length of the year.
* `CalendarDate.daysBeforeYear_yearOfDay_le`, `CalendarDate.lt_daysBeforeYear_yearOfDay` — the year of a day is the
  one that starts by that day and does not end before it.
* `CalendarDate.isValid_ofDayNumber` — every day has a date.
* `CalendarDate.dayNumber_ofDayNumber` — a date found by its number has that number.
-/

namespace HttpFields

/-- A date: a year, a month counted from zero, and a day of the month counted from one. -/
structure CalendarDate where
  year : Int
  month : Fin 12
  day : Nat
  deriving DecidableEq, Repr

namespace CalendarDate

/-! ## Years and months -/

/-- Whether a year has a 29th of February. -/
def isLeapYear (year : Int) : Bool := year % 4 = 0 && (year % 100 ≠ 0 || year % 400 = 0)

/-- The lengths of the months of a year. -/
def monthLengths (leap : Bool) : List Nat := [31, if leap then 29 else 28, 31, 30, 31, 30, 31, 31, 30, 31, 30, 31]

/-- The days of a year. -/
def yearLength (year : Int) : Nat := if isLeapYear year then 366 else 365

/-- The days of a month. -/
def monthLength (year : Int) (month : Fin 12) : Nat := (monthLengths (isLeapYear year)).get month

/-- Whether the calendar has the date: its day is one of the month's. -/
def isValid (d : CalendarDate) : Bool := decide (1 ≤ d.day ∧ d.day ≤ monthLength d.year d.month)

/-- The days of a year before its given month. -/
def daysBeforeMonth (leap : Bool) (month : Nat) : Nat := ((monthLengths leap).take month).foldr (· + ·) 0

/-- The days from the start of year 0 to the start of the given year, less than zero for years before it. -/
def daysBeforeYear (year : Int) : Int := 365 * year + (year + 3) / 4 - (year + 99) / 100 + (year + 399) / 400

/-! ## Numbering the days -/

/-- The number of a date, counted in days from the first of January 1970. -/
def dayNumber (d : CalendarDate) : Int :=
  daysBeforeYear d.year - daysBeforeYear 1970 + daysBeforeMonth (isLeapYear d.year) d.month + d.day - 1

/-- The year that holds a day, given by its distance from the start of year 0. Four hundred years have 146097 days,
    which gives the year up to a difference of one. -/
def yearOfDay (n : Int) : Int :=
  let year := n * 400 / 146097
  if n < daysBeforeYear year then year - 1
  else if daysBeforeYear (year + 1) ≤ n then year + 1
  else year

/-- The month that holds a day of a year, both counted from zero: as many months as have ended by that day. -/
def monthOfDay (leap : Bool) (n : Nat) : Fin 12 :=
  ⟨(List.range 11).countP fun month => decide (daysBeforeMonth leap (month + 1) ≤ n),
    Nat.lt_succ_of_le (by simpa using List.countP_le_length (l := List.range 11))⟩

/-- The date of the given number. -/
def ofDayNumber (n : Int) : CalendarDate :=
  let n := n + daysBeforeYear 1970
  let year := yearOfDay n
  let dayOfYear := (n - daysBeforeYear year).toNat
  let month := monthOfDay (isLeapYear year) dayOfYear
  ⟨year, month, dayOfYear - daysBeforeMonth (isLeapYear year) month + 1⟩

/-- The day of the week of the day of the given number, from Monday, which is zero. The first of January 1970 was a
    Thursday. -/
def weekday (n : Int) : Fin 7 :=
  ⟨((n + 3) % 7).toNat, by omega⟩

/-! ## The year of a day -/

/-- The days before the next year are those before a year and those of the year. -/
theorem daysBeforeYear_succ (year : Int) : daysBeforeYear (year + 1) = daysBeforeYear year + yearLength year := by
  unfold yearLength
  split
  · rename_i h
    simp only [isLeapYear, Bool.and_eq_true, Bool.or_eq_true, decide_eq_true_eq] at h
    unfold daysBeforeYear
    omega
  · rename_i h
    simp only [isLeapYear, Bool.and_eq_true, Bool.or_eq_true, decide_eq_true_eq] at h
    unfold daysBeforeYear
    omega

theorem daysBeforeYear_yearOfDay_le (n : Int) : daysBeforeYear (yearOfDay n) ≤ n := by
  simp only [yearOfDay]
  split
  · rename_i h
    unfold daysBeforeYear at *
    omega
  · split
    · assumption
    · omega

theorem lt_daysBeforeYear_yearOfDay (n : Int) : n < daysBeforeYear (yearOfDay n + 1) := by
  simp only [yearOfDay]
  split
  · rw [Int.sub_add_cancel]
    assumption
  · split
    · unfold daysBeforeYear at *
      omega
    · omega

/-! ## The month of a day -/

private theorem monthOfDay_bounds (leap : Bool) (n : Nat) (h : n < if leap then 366 else 365) :
    daysBeforeMonth leap (monthOfDay leap n) ≤ n ∧
      n < daysBeforeMonth leap (monthOfDay leap n) + (monthLengths leap).get (monthOfDay leap n) := by
  revert h
  revert n
  have key : ∀ n : Fin 366, n.val < (if leap then 366 else 365) →
      daysBeforeMonth leap (monthOfDay leap n) ≤ n ∧
        n < daysBeforeMonth leap (monthOfDay leap n) + (monthLengths leap).get (monthOfDay leap n) := by
    cases leap <;> decide +kernel
  intro n h
  exact key ⟨n, by split at h <;> omega⟩ h

/-- The distance of a day from the start of its year is less than the length of the year. -/
theorem dayOfYear_lt (n : Int) : (n - daysBeforeYear (yearOfDay n)).toNat < yearLength (yearOfDay n) := by
  have h₁ := daysBeforeYear_yearOfDay_le n
  have h₂ := lt_daysBeforeYear_yearOfDay n
  rw [daysBeforeYear_succ] at h₂
  omega

/-- **Every day has a date.** A date found by its number is one of the calendar. -/
theorem isValid_ofDayNumber (n : Int) : (ofDayNumber n).isValid = true := by
  have h := dayOfYear_lt (n + daysBeforeYear 1970)
  have := monthOfDay_bounds (isLeapYear (yearOfDay (n + daysBeforeYear 1970))) _ h
  simp only [ofDayNumber, isValid, monthLength]
  refine decide_eq_true ⟨?_, ?_⟩ <;> omega

/-- **The number of a date.** A date found by its number has that number. -/
theorem dayNumber_ofDayNumber (n : Int) : (ofDayNumber n).dayNumber = n := by
  have hle := daysBeforeYear_yearOfDay_le (n + daysBeforeYear 1970)
  have h := dayOfYear_lt (n + daysBeforeYear 1970)
  have := monthOfDay_bounds (isLeapYear (yearOfDay (n + daysBeforeYear 1970))) _ h
  simp only [ofDayNumber, dayNumber]
  omega

end CalendarDate

end HttpFields
