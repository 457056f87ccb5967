import HttpFields.Calendar.Basic
import HttpFields.Proofs.Calendar
import HttpFields.Proofs.Calendar.Count

/-!
# `HttpFields.Proofs.Calendar.Gregorian` — the Gregorian calendar by its laws

A calendar may count its days in any way. What makes it the Gregorian one is said here without a count: it has the days
of each month, the clock of each day goes up to the last second before midnight, the first of January 1970 is where
instants are counted from, and the day after a day starts 86400 seconds later. From one day to the next that determines
every instant, for there is no date that days do not lead to.

Dates are only read with years of four digits, and of these years alone the laws speak. Instants are written with any
year.

* `weekdayName`, `monthName`, `short` — the names that are written.
* `CalendarDate.induction_next` — what passes from each day on to the next.
* `Calendar.IsGregorian` — the laws.
* `Calendar.IsGregorian.at?_eq_some`, `Calendar.IsGregorian.at?_eq_none` — the instants of such a calendar.
* `Instant.isAt_date_time`, `Instant.IsAt.unique` — an instant has one date and one time of day.
* `Calendar.isGregorian_gregorian` — the calendar in use keeps the laws.
-/

namespace HttpFields

/-! ## Names -/

/-- The name of a day of the week, from Monday. -/
def weekdayName : Fin 7 → Text
  | 0 => "Monday".toList
  | 1 => "Tuesday".toList
  | 2 => "Wednesday".toList
  | 3 => "Thursday".toList
  | 4 => "Friday".toList
  | 5 => "Saturday".toList
  | 6 => "Sunday".toList

/-- The name of a month. -/
def monthName : Fin 12 → Text
  | 0 => "January".toList
  | 1 => "February".toList
  | 2 => "March".toList
  | 3 => "April".toList
  | 4 => "May".toList
  | 5 => "June".toList
  | 6 => "July".toList
  | 7 => "August".toList
  | 8 => "September".toList
  | 9 => "October".toList
  | 10 => "November".toList
  | 11 => "December".toList

/-- A name in short: its first three letters. -/
def short (name : Text) : Text := name.take 3

/-! ## From day to day -/

namespace CalendarDate

theorem daysOfMonth_le (year : Int) (month : Fin 12) : daysOfMonth year month ≤ 31 := by
  rw [daysOfMonth_eq_monthLength]
  exact monthLengths_le _ month

/-- A date is determined by its number. -/
theorem eq_of_dayNumber_eq {d d' : CalendarDate} (h : d.IsDay) (h' : d'.IsDay) (heq : d.dayNumber = d'.dayNumber) :
    d = d' := by
  rw [← ofDayNumber_dayNumber (isValid_iff_isDay.mpr h), heq, ofDayNumber_dayNumber (isValid_iff_isDay.mpr h')]

/-- **From day to day.** What holds of a day, and passes from each day on to the next, holds of all days from it on. -/
theorem induction_next {P : CalendarDate → Prop} {first : CalendarDate} (hfirst : P first) (hday : first.IsDay)
    (hnext : ∀ d, d.IsDay → P d → P d.next) {d : CalendarDate} (hd : d.IsDay) (hle : first.dayNumber ≤ d.dayNumber) :
    P d := by
  obtain ⟨count, hcount⟩ := Int.le.dest hle
  induction count generalizing d with
  | zero =>
    have heq : first.dayNumber = d.dayNumber := by omega
    exact eq_of_dayNumber_eq hday hd heq ▸ hfirst
  | succ count ih =>
    -- the day before has a number too, and the date of that number is a day
    have hbefore : (ofDayNumber (first.dayNumber + count)).IsDay := isValid_iff_isDay.mp (isValid_ofDayNumber _)
    have hnumber : (ofDayNumber (first.dayNumber + count)).dayNumber = first.dayNumber + count :=
      dayNumber_ofDayNumber _
    have hsame : (ofDayNumber (first.dayNumber + count)).next = d := by
      apply eq_of_dayNumber_eq (isDay_next _) hd
      rw [dayNumber_next hbefore, hnumber]
      omega
    rw [← hsame]
    exact hnext _ hbefore (ih hbefore (by omega) hnumber.symm)

/-- The first day of year 0 is the first of all days of this year and later ones. -/
theorem dayNumber_le_of_year {d : CalendarDate} (hd : d.IsDay) (hyear : 0 ≤ d.year) :
    dayNumber ⟨0, 0, 1⟩ ≤ d.dayNumber := by
  have hmono := daysBeforeYear_mono hyear
  have hzero : daysBeforeMonth (isLeapYear 0) 0 = 0 := rfl
  have hday := hd.1
  simp only [dayNumber, Fin.val_zero, hzero]
  omega

end CalendarDate

/-! ## Instants and their dates -/

namespace Instant

/-- An instant has the date and the time of day that are found by its seconds. -/
theorem isAt_date_time (i : Instant) : i.IsAt i.date i.time := by
  have htime : i.time.isValid = true := TimeOfDay.isValid_ofSeconds (by omega)
  have hinstant : HasInstant i.date i.time := hasInstant_iff.mpr ⟨CalendarDate.isValid_ofDayNumber i.day, htime⟩
  refine ⟨hinstant, ?_⟩
  have heq := (ofDateTime?_eq_some hinstant).symm.trans i.ofDateTime?_date_time
  exact (congrArg seconds (Option.some.inj heq)).symm

theorem IsAt.date_time_eq {i : Instant} {d : CalendarDate} {t : TimeOfDay} (h : i.IsAt d t) :
    i.date = d ∧ i.time = t := by
  obtain ⟨hinstant, hseconds⟩ := h
  obtain ⟨hdate, htime, -⟩ := date_time_of_ofDateTime? (ofDateTime?_eq_some hinstant)
  -- neither depends on more than the seconds
  rw [date, day, time, hseconds]
  exact ⟨hdate, htime⟩

/-- **One date.** An instant has one date and one time of day. -/
theorem IsAt.unique {i : Instant} {d d' : CalendarDate} {t t' : TimeOfDay} (h : i.IsAt d t) (h' : i.IsAt d' t') :
    d = d' ∧ t = t' := by
  obtain ⟨rfl, rfl⟩ := h.date_time_eq
  exact h'.date_time_eq

theorem IsAt.dayOfWeek_eq {i : Instant} {d : CalendarDate} {t : TimeOfDay} (h : i.IsAt d t) :
    CalendarDate.weekday i.day = d.dayOfWeek := by
  have hday : i.day = d.countedDays := by
    obtain ⟨rfl, -⟩ := h.date_time_eq
    rw [← CalendarDate.dayNumber_eq_countedDays, date, CalendarDate.dayNumber_ofDayNumber]
  unfold CalendarDate.weekday CalendarDate.dayOfWeek
  rw [hday]

end Instant

/-! ## The laws -/

namespace Calendar

/-- The instant of a date and a time of day, if the calendar has the one and a clock shows the other. -/
def at? (calendar : Calendar) (d : CalendarDate) (t : TimeOfDay) : Option Instant :=
  (calendar.day? d.year (d.month + 1) d.day).bind fun day => calendar.instant? day t.hour t.minute t.second

/-- **The laws of the Gregorian calendar.** It is carried on to all years before and after, and has no leap seconds. A
    pattern is written from left to right. -/
structure IsGregorian (calendar : Calendar) : Prop where
  /-- The days are those of each month. -/
  isSome_day? : ∀ d : CalendarDate, 0 ≤ d.year → d.year ≤ 9999 →
    ((calendar.day? d.year (d.month + 1) d.day).isSome = true ↔ d.IsDay)
  /-- The times of day are those that a clock shows. -/
  isSome_instant? : ∀ (day : calendar.Day) (t : TimeOfDay),
    (calendar.instant? day t.hour t.minute t.second).isSome = true ↔ t.IsShown
  /-- Seconds are counted from the start of 1970. -/
  epoch : calendar.at? ⟨1970, 0, 1⟩ ⟨0, 0, 0⟩ = some ⟨0, 0⟩
  /-- A day has 86400 seconds, and then the next day starts. -/
  next : ∀ (d : CalendarDate) (i : Instant), 0 ≤ d.year → d.next.year ≤ 9999 →
    calendar.at? d ⟨0, 0, 0⟩ = some i → calendar.at? d.next ⟨0, 0, 0⟩ = some ⟨i.seconds + 86400, 0⟩
  /-- A time of day is so many hours, minutes and seconds after the start of the day, and starts a second. -/
  time : ∀ (d : CalendarDate) (t : TimeOfDay) (i : Instant), t.IsShown → calendar.at? d ⟨0, 0, 0⟩ = some i →
    calendar.at? d t = some ⟨i.seconds + 3600 * t.hour + 60 * t.minute + t.second, 0⟩
  /-- Nothing is written for an empty pattern. -/
  format_nil : ∀ i, calendar.format [] i = []
  /-- A character stands for itself, but for the percent sign. -/
  format_cons : ∀ (c : Char) (pattern : Text) (i : Instant), c ≠ '%' →
    calendar.format (c :: pattern) i = c :: calendar.format pattern i
  /-- The letter for the day of the week, in short. -/
  format_weekday : ∀ (pattern : Text) (i : Instant) (d : CalendarDate) (t : TimeOfDay), i.IsAt d t →
    calendar.format ('%' :: 'a' :: pattern) i = short (weekdayName d.dayOfWeek) ++ calendar.format pattern i
  /-- The letter for the day of the month, with two digits. -/
  format_day : ∀ (pattern : Text) (i : Instant) (d : CalendarDate) (t : TimeOfDay), i.IsAt d t →
    calendar.format ('%' :: 'd' :: pattern) i = Decimal.padded 2 d.day ++ calendar.format pattern i
  /-- The letter for the month, in short. -/
  format_month : ∀ (pattern : Text) (i : Instant) (d : CalendarDate) (t : TimeOfDay), i.IsAt d t →
    calendar.format ('%' :: 'b' :: pattern) i = short (monthName d.month) ++ calendar.format pattern i
  /-- The letter for the year. It has four digits, if they suffice. -/
  format_year : ∀ (pattern : Text) (i : Instant) (d : CalendarDate) (t : TimeOfDay), i.IsAt d t →
    0 ≤ d.year → d.year ≤ 9999 →
      calendar.format ('%' :: 'Y' :: pattern) i = Decimal.padded 4 d.year.toNat ++ calendar.format pattern i
  /-- Any other year has a sign and at least four digits. -/
  format_signedYear : ∀ (pattern : Text) (i : Instant) (d : CalendarDate) (t : TimeOfDay), i.IsAt d t →
    d.year < 0 ∨ 9999 < d.year →
      calendar.format ('%' :: 'Y' :: pattern) i =
        (if d.year < 0 then '-' else '+') :: (Decimal.padded 4 d.year.natAbs ++ calendar.format pattern i)
  /-- The letter for the hour, with two digits. -/
  format_hour : ∀ (pattern : Text) (i : Instant) (d : CalendarDate) (t : TimeOfDay), i.IsAt d t →
    calendar.format ('%' :: 'H' :: pattern) i = Decimal.padded 2 t.hour ++ calendar.format pattern i
  /-- The letter for the minute, with two digits. -/
  format_minute : ∀ (pattern : Text) (i : Instant) (d : CalendarDate) (t : TimeOfDay), i.IsAt d t →
    calendar.format ('%' :: 'M' :: pattern) i = Decimal.padded 2 t.minute ++ calendar.format pattern i
  /-- The letter for the second, with two digits. -/
  format_second : ∀ (pattern : Text) (i : Instant) (d : CalendarDate) (t : TimeOfDay), i.IsAt d t →
    calendar.format ('%' :: 'S' :: pattern) i = Decimal.padded 2 t.second ++ calendar.format pattern i

namespace IsGregorian

variable {calendar : Calendar} (h : calendar.IsGregorian)
include h

/-! ## The instants of a Gregorian calendar -/

/-- The start of a day is an instant without nanoseconds. -/
theorem exists_at? {d : CalendarDate} (hd : d.IsDay) (hlow : 0 ≤ d.year) (hhigh : d.year ≤ 9999) :
    ∃ seconds, calendar.at? d ⟨0, 0, 0⟩ = some ⟨seconds, 0⟩ := by
  have hmidnight : TimeOfDay.IsShown ⟨0, 0, 0⟩ := by decide
  obtain ⟨day, hday⟩ := Option.isSome_iff_exists.mp ((h.isSome_day? d hlow hhigh).mpr hd)
  obtain ⟨i, hi⟩ := Option.isSome_iff_exists.mp ((h.isSome_instant? day ⟨0, 0, 0⟩).mpr hmidnight)
  have hat : calendar.at? d ⟨0, 0, 0⟩ = some i := by
    rw [at?, hday]
    exact hi
  exact ⟨_, h.time d ⟨0, 0, 0⟩ i hmidnight hat⟩

/-- From the first day of year 0 on, wherever it starts, each day starts as much later as there are days between. -/
theorem at?_of_start {start : Int} (hstart : calendar.at? ⟨0, 0, 1⟩ ⟨0, 0, 0⟩ = some ⟨start, 0⟩) {d : CalendarDate}
    (hd : d.IsDay) (hlow : 0 ≤ d.year) (hhigh : d.year ≤ 9999) :
    calendar.at? d ⟨0, 0, 0⟩ = some ⟨start + 86400 * (d.dayNumber - CalendarDate.dayNumber ⟨0, 0, 1⟩), 0⟩ := by
  have hle := CalendarDate.dayNumber_le_of_year hd hlow
  -- the years of the days between are in range as well, for no day has an earlier year than the one before it
  refine (CalendarDate.induction_next (P := fun d => 0 ≤ d.year ∧ (d.year ≤ 9999 → calendar.at? d ⟨0, 0, 0⟩ =
      some ⟨start + 86400 * (d.dayNumber - CalendarDate.dayNumber ⟨0, 0, 1⟩), 0⟩)) ?_ (by decide) ?_ hd hle).2 hhigh
  · refine ⟨Int.le_refl 0, fun _ => ?_⟩
    rw [hstart, Int.sub_self, Int.mul_zero, Int.add_zero]
  · rintro d hd ⟨hlow, ih⟩
    refine ⟨Int.le_trans hlow d.year_le_next, fun hhigh => ?_⟩
    rw [h.next d _ hlow hhigh (ih (Int.le_trans d.year_le_next hhigh)), CalendarDate.dayNumber_next hd]
    simp only [Option.some.injEq, Instant.mk.injEq, and_true]
    omega

/-- **Every day is counted.** The days of a Gregorian calendar start where they are counted to start, since the first of
    January 1970 does. -/
theorem at?_midnight {d : CalendarDate} (hd : d.IsDay) (hlow : 0 ≤ d.year) (hhigh : d.year ≤ 9999) :
    calendar.at? d ⟨0, 0, 0⟩ = some ⟨86400 * d.countedDays, 0⟩ := by
  obtain ⟨start, hstart⟩ := h.exists_at? (d := ⟨0, 0, 1⟩) (by decide) (by decide) (by decide)
  have hepoch := (h.at?_of_start hstart (d := ⟨1970, 0, 1⟩) (by decide) (by decide) (by decide)).symm.trans h.epoch
  have hstart_eq := congrArg Instant.seconds (Option.some.inj hepoch)
  have hnumber : CalendarDate.dayNumber ⟨1970, 0, 1⟩ = 0 := by decide
  rw [h.at?_of_start hstart hd hlow hhigh, ← CalendarDate.dayNumber_eq_countedDays]
  simp only [Option.some.injEq, Instant.mk.injEq, and_true] at hstart_eq ⊢
  omega

/-- The instant of a date and a time of day that exist is counted. -/
theorem at?_eq_some {d : CalendarDate} {t : TimeOfDay} (hinstant : HasInstant d t) (hlow : 0 ≤ d.year)
    (hhigh : d.year ≤ 9999) : calendar.at? d t = some ⟨countedSeconds d t, 0⟩ :=
  h.time d t _ hinstant.2 (h.at?_midnight hinstant.1 hlow hhigh)

/-- If there is no such date or no such time of day, there is no instant. -/
theorem at?_eq_none {d : CalendarDate} {t : TimeOfDay} (hinstant : ¬ HasInstant d t) (hlow : 0 ≤ d.year)
    (hhigh : d.year ≤ 9999) : calendar.at? d t = none := by
  rw [Option.eq_none_iff_forall_ne_some]
  intro i hi
  obtain ⟨day, hday, hi⟩ := Option.bind_eq_some_iff.mp hi
  apply hinstant
  exact ⟨(h.isSome_day? d hlow hhigh).mp (Option.isSome_of_eq_some hday),
    (h.isSome_instant? day t).mp (Option.isSome_of_eq_some hi)⟩

end IsGregorian

/-! ## The calendar in use -/

theorem gregorian_day?_eq_some {d : CalendarDate} (h : d.isValid = true) :
    gregorian.day? d.year (d.month + 1) d.day = some ⟨d, h⟩ := by
  show (if hmonth : d.month.val < 12 then _ else none) = _
  rw [dif_pos d.month.isLt]
  exact dif_pos h

theorem gregorian_day?_eq_none {d : CalendarDate} (h : ¬ d.isValid = true) :
    gregorian.day? d.year (d.month + 1) d.day = none := by
  show (if hmonth : d.month.val < 12 then _ else none) = _
  rw [dif_pos d.month.isLt]
  exact dif_neg h

/-- The instants of the calendar in use are those of its dates and times of day. -/
theorem gregorian_at? (d : CalendarDate) (t : TimeOfDay) : gregorian.at? d t = Instant.ofDateTime? d t := by
  by_cases h : d.isValid = true
  · rw [at?, gregorian_day?_eq_some h]
    rfl
  · rw [at?, gregorian_day?_eq_none h, Instant.ofDateTime?, Bool.eq_false_iff.mpr h]
    rfl

theorem weekdays_get : ∀ weekday : Fin weekdays.length, weekdays.get weekday = short (weekdayName weekday) := by decide

theorem months_get : ∀ month : Fin months.length, months.get month = short (monthName month) := by decide

/-- A day that there is starts at the instant that is counted to it. -/
theorem gregorian_at?_midnight {d : CalendarDate} {i : Instant} (h : gregorian.at? d ⟨0, 0, 0⟩ = some i) :
    d.isValid = true ∧ i = ⟨86400 * d.dayNumber, 0⟩ := by
  rw [gregorian_at?, Instant.ofDateTime?] at h
  split at h
  · rename_i hvalid
    refine ⟨(Bool.and_eq_true_iff.mp hvalid).1, (Option.some.inj h).symm.trans ?_⟩
    rw [Instant.mk.injEq]
    exact ⟨Int.add_zero _, rfl⟩
  · cases h

/-- **The calendar in use is Gregorian.** -/
theorem isGregorian_gregorian : gregorian.IsGregorian where
  isSome_day? d _ _ := by
    rw [← CalendarDate.isValid_iff_isDay]
    by_cases hd : d.isValid = true
    · rw [gregorian_day?_eq_some hd]
      exact iff_of_true rfl hd
    · rw [gregorian_day?_eq_none hd]
      exact iff_of_false Bool.false_ne_true hd
  isSome_instant? day t := by
    show (Instant.ofDateTime? day.val t).isSome = true ↔ _
    rw [Instant.ofDateTime?, day.property, Bool.true_and, TimeOfDay.isValid, Option.isSome_ite, decide_eq_true_eq]
    rfl
  epoch := by decide
  next d i _ _ hi := by
    obtain ⟨hd, rfl⟩ := gregorian_at?_midnight hi
    have hnext : d.next.isValid = true := CalendarDate.isValid_iff_isDay.mpr d.isDay_next
    have hnumber := CalendarDate.dayNumber_next (CalendarDate.isValid_iff_isDay.mp hd)
    rw [gregorian_at?, Instant.ofDateTime?, hnext, hnumber, Bool.true_and, if_pos (by decide)]
    simp only [Option.some.injEq, Instant.mk.injEq, and_true, TimeOfDay.seconds]
    omega
  time d t i ht hi := by
    obtain ⟨hd, rfl⟩ := gregorian_at?_midnight hi
    have htime : t.isValid = true := decide_eq_true ht
    rw [gregorian_at?, Instant.ofDateTime?, hd, htime, Bool.and_self, if_pos rfl]
    simp only [Option.some.injEq, Instant.mk.injEq, and_true, TimeOfDay.seconds]
    omega
  format_nil _ := rfl
  format_cons c pattern i hc := by
    show fill i (c :: pattern) = c :: fill i pattern
    rw [fill]
    rintro letter pattern' rfl
    exact fun _ => hc rfl
  format_weekday pattern i d t hi := by
    rw [← hi.dayOfWeek_eq]
    exact congrArg (· ++ fill i pattern) (weekdays_get (CalendarDate.weekday i.day))
  format_day pattern i d t hi := by
    obtain ⟨rfl, -⟩ := hi.date_time_eq
    rfl
  format_month pattern i d t hi := by
    obtain ⟨rfl, -⟩ := hi.date_time_eq
    exact congrArg (· ++ fill i pattern) (months_get i.date.month)
  format_year pattern i d t hi hlow hhigh := by
    obtain ⟨rfl, -⟩ := hi.date_time_eq
    show writeYear i.date.year ++ _ = _
    rw [writeYear, if_pos ⟨hlow, hhigh⟩]
    rfl
  format_signedYear pattern i d t hi hyear := by
    obtain ⟨rfl, -⟩ := hi.date_time_eq
    show writeYear i.date.year ++ _ = _
    rw [writeYear, if_neg (by omega)]
    rfl
  format_hour pattern i d t hi := by
    obtain ⟨-, rfl⟩ := hi.date_time_eq
    rfl
  format_minute pattern i d t hi := by
    obtain ⟨-, rfl⟩ := hi.date_time_eq
    rfl
  format_second pattern i d t hi := by
    obtain ⟨-, rfl⟩ := hi.date_time_eq
    rfl

end Calendar

end HttpFields
