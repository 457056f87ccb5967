import HttpFields.Calendar.Date

/-!
# `HttpFields.Calendar.Instant` — instants and their date and time

An instant is counted in seconds from the start of the first of January 1970 and in nanoseconds on top of them. Every
day has 86400 seconds.

* `Instant.ofDateTime?` — the instant of a date and a time of day, if both exist.
* `Instant.ofDateTime?_date_time` — the date and time of an instant lead back to its second.
-/

namespace HttpFields

/-! ## Times of day -/

/-- A time of day. -/
structure TimeOfDay where
  hour : Nat
  minute : Nat
  second : Nat
  deriving DecidableEq, Repr

namespace TimeOfDay

/-- Whether a clock shows the time. There are no leap seconds. -/
def isValid (t : TimeOfDay) : Bool := decide (t.hour ≤ 23 ∧ t.minute ≤ 59 ∧ t.second ≤ 59)

/-- The seconds since midnight. -/
def seconds (t : TimeOfDay) : Nat := 3600 * t.hour + 60 * t.minute + t.second

/-- The time of day that many seconds after midnight. -/
def ofSeconds (n : Nat) : TimeOfDay := ⟨n / 3600, n / 60 % 60, n % 60⟩

@[simp] theorem seconds_ofSeconds (n : Nat) : (ofSeconds n).seconds = n := by
  simp only [ofSeconds, seconds]
  omega

theorem ofSeconds_seconds {t : TimeOfDay} (h : t.isValid = true) : ofSeconds t.seconds = t := by
  obtain ⟨hour, minute, second⟩ := t
  simp only [isValid, decide_eq_true_eq] at h
  simp only [ofSeconds, seconds, mk.injEq]
  omega

theorem isValid_ofSeconds {n : Nat} (h : n < 86400) : (ofSeconds n).isValid = true := by
  have hour : n / 3600 ≤ 23 := by omega
  have minute : n / 60 % 60 ≤ 59 := by omega
  have second : n % 60 ≤ 59 := by omega
  exact decide_eq_true ⟨hour, minute, second⟩

end TimeOfDay

/-! ## Instants -/

/-- An instant: whole seconds since the start of 1970, and nanoseconds. -/
structure Instant where
  seconds : Int
  nanos : Fin 1000000000
  deriving DecidableEq

namespace Instant

/-- The instant at which a date and a time of day start, or nothing if one of them does not exist. -/
def ofDateTime? (date : CalendarDate) (time : TimeOfDay) : Option Instant :=
  if date.isValid && time.isValid then some ⟨86400 * date.dayNumber + time.seconds, 0⟩ else none

/-- The number of the day of an instant. -/
def day (i : Instant) : Int := i.seconds / 86400

/-- The date of an instant. -/
def date (i : Instant) : CalendarDate := .ofDayNumber i.day

/-- The time of day of an instant, with its nanoseconds dropped. -/
def time (i : Instant) : TimeOfDay := .ofSeconds (i.seconds % 86400).toNat

/-- **Date and time lead back.** The date and time of an instant exist, and start at its second. -/
theorem ofDateTime?_date_time (i : Instant) : ofDateTime? i.date i.time = some ⟨i.seconds, 0⟩ := by
  have hsec : (i.seconds % 86400).toNat < 86400 := by omega
  have hdate : i.date.isValid = true := CalendarDate.isValid_ofDayNumber i.day
  have htime : i.time.isValid = true := TimeOfDay.isValid_ofSeconds hsec
  have hnum : i.date.dayNumber = i.seconds / 86400 := CalendarDate.dayNumber_ofDayNumber i.day
  have htod : i.time.seconds = (i.seconds % 86400).toNat := TimeOfDay.seconds_ofSeconds _
  rw [ofDateTime?, hdate, htime, hnum, htod]
  simp only [Bool.and_self, if_true, Option.some.injEq, mk.injEq, and_true]
  omega

end Instant

end HttpFields
