import Mathlib.Algebra.BigOperators.Fin
import HttpFields.Calendar.Instant

/-!
# `HttpFields.Proofs.Calendar.Count` — the days of the calendar, counted

The number of a date is computed in closed form. Here the same days are counted: a month has its days, a year those of
its months, and what lies between the start of 1970 and a date is years, then months, then days. A sum of years
telescopes, since the days before a year grow by the length of the year, and so the two numbers agree. The day after a
date is found without any number, and it is the one that is counted next.

* `daysOfMonth`, `daysOfYear`, `daysOfYears`, `countedDays` — the count.
* `IsDay`, `next`, `dayOfWeek` — the dates there are, the day after one, and its day of the week.
* `daysOfMonth_eq_monthLength`, `dayNumber_eq_countedDays` — what the calendar computes is what is counted.
* `isDay_next`, `dayNumber_next` — the day after.
-/

namespace HttpFields

namespace CalendarDate

/-! ## The count -/

/-- A leap year: every fourth one except for the centuries, and of these every fourth one. -/
def IsLeap (year : Int) : Prop := 4 ∣ year ∧ ¬ 100 ∣ year ∨ 400 ∣ year

instance (year : Int) : Decidable (IsLeap year) := inferInstanceAs (Decidable (_ ∨ _))

/-- The days of a month, January being the month zero. -/
def daysOfMonth (year : Int) (month : Fin 12) : Nat :=
  if month = 1 then if IsLeap year then 29 else 28
  else if month ∈ [3, 5, 8, 10] then 30 else 31

/-- The days of all months of a year. -/
def daysOfYear (year : Int) : Nat := ∑ month, daysOfMonth year month

/-- The days of all years from the first one up to the last one, which does not count. -/
def daysOfYears (first last : Int) : Nat := ∑ i ∈ Finset.range (last - first).toNat, daysOfYear (first + i)

/-- The days from the first of January 1970 to a date: those of the years between the two, which count as negative if
    the date is the earlier one, those of the months in front of the date in its year, and those in front of it in its
    month. -/
def countedDays (d : CalendarDate) : Int :=
  daysOfYears 1970 d.year - daysOfYears d.year 1970 + ∑ month with month < d.month, (daysOfMonth d.year month : Int) +
    (d.day - 1)

/-- The calendar has the date: its day is one of its month. -/
def IsDay (d : CalendarDate) : Prop := 1 ≤ d.day ∧ d.day ≤ daysOfMonth d.year d.month

instance (d : CalendarDate) : Decidable d.IsDay := inferInstanceAs (Decidable (_ ∧ _))

/-- The day after: the next one of the month, or else the first of the next month, or of the next year. -/
def next (d : CalendarDate) : CalendarDate :=
  if d.day < daysOfMonth d.year d.month then ⟨d.year, d.month, d.day + 1⟩
  else if h : d.month.val + 1 < 12 then ⟨d.year, ⟨d.month + 1, h⟩, 1⟩
  else ⟨d.year + 1, 0, 1⟩

/-- The day of the week of a date, from Monday, which is zero. The first of January 1970 was a Thursday. -/
def dayOfWeek (d : CalendarDate) : Fin 7 := ⟨((d.countedDays + 3) % 7).toNat, by omega⟩

/-! ## Months and years -/

theorem isLeapYear_iff {year : Int} : isLeapYear year = true ↔ IsLeap year := by
  simp only [isLeapYear, IsLeap, Bool.and_eq_true, Bool.or_eq_true, decide_eq_true_eq]
  omega

/-- The lengths of the months are those of the table. -/
theorem daysOfMonth_eq_monthLength (year : Int) (month : Fin 12) : daysOfMonth year month = monthLength year month := by
  unfold daysOfMonth monthLength
  simp only [← isLeapYear_iff]
  generalize isLeapYear year = leap
  revert leap month
  decide

theorem daysOfYear_eq_yearLength (year : Int) : daysOfYear year = yearLength year := by
  unfold daysOfYear yearLength
  simp only [daysOfMonth_eq_monthLength, monthLength]
  generalize isLeapYear year = leap
  revert leap
  decide

/-- **Years telescope.** The days of the years from one to another are the difference of the days before them. -/
theorem daysOfYears_eq {first last : Int} (h : first ≤ last) :
    (daysOfYears first last : Int) = daysBeforeYear last - daysBeforeYear first := by
  obtain ⟨count, rfl⟩ := Int.le.dest h
  unfold daysOfYears
  rw [add_sub_cancel_left, Int.toNat_natCast]
  induction count with
  | zero => simp
  | succ count ih =>
    have hnext : first + (count + 1 : Nat) = first + count + 1 := by omega
    rw [Finset.sum_range_succ, Nat.cast_add, ih (by omega), hnext, daysBeforeYear_succ, daysOfYear_eq_yearLength]
    omega

/-- There are no years up to one that is not later. -/
theorem daysOfYears_eq_zero {first last : Int} (h : last ≤ first) : daysOfYears first last = 0 := by
  unfold daysOfYears
  rw [Int.toNat_of_nonpos (by omega), Finset.sum_range_zero]

theorem sum_daysOfMonth (year : Int) (month : Fin 12) :
    ∑ m with m < month, (daysOfMonth year m : Int) = daysBeforeMonth (isLeapYear year) month := by
  simp only [daysOfMonth_eq_monthLength, monthLength]
  generalize isLeapYear year = leap
  revert leap month
  decide

/-! ## Days -/

/-- **The number of a date is counted.** -/
theorem dayNumber_eq_countedDays (d : CalendarDate) : d.dayNumber = d.countedDays := by
  unfold dayNumber countedDays
  rw [sum_daysOfMonth]
  -- one of the two sums over years is empty
  rcases Int.le_total 1970 d.year with h | h
  · rw [daysOfYears_eq h, daysOfYears_eq_zero h]
    omega
  · rw [daysOfYears_eq h, daysOfYears_eq_zero h]
    omega

theorem isValid_iff_isDay {d : CalendarDate} : d.isValid = true ↔ d.IsDay := by
  rw [isValid, decide_eq_true_eq, IsDay, daysOfMonth_eq_monthLength]

/-! ## The day after -/

theorem one_le_daysOfMonth (year : Int) (month : Fin 12) : 1 ≤ daysOfMonth year month := by
  unfold daysOfMonth
  split
  · split <;> decide
  · split <;> decide

theorem isDay_next (d : CalendarDate) : d.next.IsDay := by
  unfold next
  split
  · rename_i hlt
    exact ⟨Nat.succ_pos d.day, hlt⟩
  · split
    · exact ⟨Nat.le_refl 1, one_le_daysOfMonth _ _⟩
    · exact ⟨Nat.le_refl 1, one_le_daysOfMonth _ _⟩

theorem year_le_next (d : CalendarDate) : d.year ≤ d.next.year := by
  unfold next
  split
  · exact Int.le_refl _
  · split
    · exact Int.le_refl _
    · exact Int.le_of_lt (Int.lt_succ d.year)

/-- A month starts where the one before it ends, and the last one ends with the year. -/
theorem daysBeforeMonth_succ (year : Int) (month : Fin 12) :
    daysBeforeMonth (isLeapYear year) month + daysOfMonth year month =
      if month.val + 1 < 12 then daysBeforeMonth (isLeapYear year) (month + 1) else yearLength year := by
  simp only [daysOfMonth_eq_monthLength, monthLength, yearLength]
  generalize isLeapYear year = leap
  revert leap month
  decide

/-- **The day after is counted next.** -/
theorem dayNumber_next {d : CalendarDate} (h : d.IsDay) : d.next.dayNumber = d.dayNumber + 1 := by
  have hmonth := daysBeforeMonth_succ d.year d.month
  unfold next
  split
  · simp only [dayNumber]
    omega
  · rename_i hlast
    -- the day is the last one of its month
    have hday : d.day = daysOfMonth d.year d.month := Nat.le_antisymm h.2 (Nat.not_lt.mp hlast)
    split
    · rename_i hsame
      rw [if_pos hsame] at hmonth
      simp only [dayNumber]
      omega
    · rename_i hyear
      rw [if_neg hyear] at hmonth
      have hfirst : daysBeforeMonth (isLeapYear (d.year + 1)) 0 = 0 := rfl
      simp only [dayNumber, daysBeforeYear_succ, Fin.val_zero, hfirst]
      omega

end CalendarDate

/-! ## Seconds -/

/-- A clock shows the time. -/
def TimeOfDay.IsShown (t : TimeOfDay) : Prop := t.hour ≤ 23 ∧ t.minute ≤ 59 ∧ t.second ≤ 59

instance (t : TimeOfDay) : Decidable t.IsShown := inferInstanceAs (Decidable (_ ∧ _))

/-- There is an instant of the date and the time of day: the calendar has the one, and a clock shows the other. -/
def HasInstant (d : CalendarDate) (t : TimeOfDay) : Prop := d.IsDay ∧ t.IsShown

instance (d : CalendarDate) (t : TimeOfDay) : Decidable (HasInstant d t) := inferInstanceAs (Decidable (_ ∧ _))

/-- The seconds from the start of 1970 to a date and a time of day, with the days counted. -/
def countedSeconds (d : CalendarDate) (t : TimeOfDay) : Int :=
  86400 * d.countedDays + 3600 * t.hour + 60 * t.minute + t.second

/-- The instant is in the second that starts at the date and the time of day. -/
def Instant.IsAt (i : Instant) (d : CalendarDate) (t : TimeOfDay) : Prop :=
  HasInstant d t ∧ i.seconds = countedSeconds d t

theorem hasInstant_iff {d : CalendarDate} {t : TimeOfDay} : HasInstant d t ↔ d.isValid = true ∧ t.isValid = true := by
  rw [HasInstant, CalendarDate.isValid_iff_isDay, TimeOfDay.isValid, decide_eq_true_eq, TimeOfDay.IsShown]

/-- The instant of a date and a time of day that exist is counted. -/
theorem ofDateTime?_eq_some {d : CalendarDate} {t : TimeOfDay} (h : HasInstant d t) :
    Instant.ofDateTime? d t = some ⟨countedSeconds d t, 0⟩ := by
  obtain ⟨hd, ht⟩ := hasInstant_iff.mp h
  have hseconds : 86400 * d.dayNumber + t.seconds = countedSeconds d t := by
    unfold countedSeconds TimeOfDay.seconds
    rw [CalendarDate.dayNumber_eq_countedDays]
    omega
  rw [Instant.ofDateTime?, hd, ht, hseconds]
  rfl

end HttpFields
