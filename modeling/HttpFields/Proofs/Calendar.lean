import HttpFields.Calendar.Instant

/-!
# `HttpFields.Proofs.Calendar` — every date has one day

The other half of the numbering of days: a date that the calendar has is found again by its number. The year is found
since the days before a year grow with the year, and the month since the months of a year follow one another.

* `CalendarDate.ofDayNumber_dayNumber` — a date is found by its number.
* `Instant.date_time_of_ofDateTime?` — the date and time of an instant that starts at a date and a time of day.
-/

namespace HttpFields

namespace CalendarDate

theorem daysBeforeYear_mono {a b : Int} (h : a ≤ b) : daysBeforeYear a ≤ daysBeforeYear b := by
  unfold daysBeforeYear
  omega

/-- The year of a day is the only one that starts by that day and does not end before it. -/
theorem yearOfDay_eq {n year : Int} (hle : daysBeforeYear year ≤ n) (hlt : n < daysBeforeYear (year + 1)) :
    yearOfDay n = year := by
  have hle' := daysBeforeYear_yearOfDay_le n
  have hlt' := lt_daysBeforeYear_yearOfDay n
  -- a year later or earlier would lie wholly behind the day or in front of it
  apply Int.le_antisymm
  · apply Int.not_lt.mp
    intro h
    have hmono := daysBeforeYear_mono (Int.add_one_le_of_lt h)
    omega
  · apply Int.not_lt.mp
    intro h
    have hmono := daysBeforeYear_mono (Int.add_one_le_of_lt h)
    omega

theorem monthLengths_le (leap : Bool) (month : Fin 12) : (monthLengths leap).get month ≤ 31 := by
  have key : ∀ n ∈ monthLengths leap, n ≤ 31 := by cases leap <;> decide
  exact key _ (List.get_mem _ _)

/-- A day of a month lies in its year, and its month is found by its distance from the start of the year. -/
theorem monthOfDay_eq (leap : Bool) (month : Fin 12) {k : Nat} (hk : k < (monthLengths leap).get month) :
    daysBeforeMonth leap month + k < (if leap then 366 else 365) ∧
      monthOfDay leap (daysBeforeMonth leap month + k) = month := by
  -- a year has finitely many days, and all of them are checked
  have key : ∀ (month : Fin 12) (k : Fin 31), k.val < (monthLengths leap).get month →
      daysBeforeMonth leap month + k < (if leap then 366 else 365) ∧
        monthOfDay leap (daysBeforeMonth leap month + k) = month := by
    clear hk
    cases leap <;> decide +kernel
  exact key month ⟨k, Nat.lt_of_lt_of_le hk (monthLengths_le leap month)⟩ hk

/-- **Every date has one day.** A date that the calendar has is found by its number. -/
theorem ofDayNumber_dayNumber {d : CalendarDate} (h : d.isValid = true) : ofDayNumber d.dayNumber = d := by
  obtain ⟨year, month, day⟩ := d
  simp only [isValid, decide_eq_true_eq] at h
  obtain ⟨hday, hlen⟩ := h
  have hk : day - 1 < (monthLengths (isLeapYear year)).get month := Nat.sub_one_lt_of_le hday hlen
  obtain ⟨hyear, hmonth⟩ := monthOfDay_eq (isLeapYear year) month hk
  have hn : dayNumber ⟨year, month, day⟩ + daysBeforeYear 1970 =
      daysBeforeYear year + (daysBeforeMonth (isLeapYear year) month + (day - 1) : Nat) := by
    simp only [dayNumber]
    omega
  have hyearOfDay :
      yearOfDay (daysBeforeYear year + (daysBeforeMonth (isLeapYear year) month + (day - 1) : Nat)) = year := by
    apply yearOfDay_eq
    · omega
    · rw [daysBeforeYear_succ, yearLength]
      omega
  have hoffset : (daysBeforeYear year + (daysBeforeMonth (isLeapYear year) month + (day - 1) : Nat) -
      daysBeforeYear year).toNat = daysBeforeMonth (isLeapYear year) month + (day - 1) := by
    omega
  rw [ofDayNumber]
  simp only [hn, hyearOfDay, hoffset, hmonth]
  congr 1
  omega

end CalendarDate

namespace Instant

/-- An instant that starts at a date and a time of day has that date and that time of day. -/
theorem date_time_of_ofDateTime? {d : CalendarDate} {t : TimeOfDay} {i : Instant} (h : ofDateTime? d t = some i) :
    i.date = d ∧ i.time = t ∧ i.nanos = 0 := by
  rw [ofDateTime?] at h
  split at h
  · rename_i hvalid
    obtain ⟨hd, ht⟩ := Bool.and_eq_true_iff.mp hvalid
    cases h
    have hlt : t.seconds < 86400 := by
      simp only [TimeOfDay.isValid, decide_eq_true_eq] at ht
      unfold TimeOfDay.seconds
      omega
    have hday : (86400 * d.dayNumber + t.seconds) / 86400 = d.dayNumber := by omega
    have hsecond : ((86400 * d.dayNumber + t.seconds) % 86400).toNat = t.seconds := by omega
    refine ⟨?_, ?_, rfl⟩
    · rw [date, day, hday]
      exact CalendarDate.ofDayNumber_dayNumber hd
    · rw [time, hsecond]
      exact TimeOfDay.ofSeconds_seconds ht
  · cases h

end Instant

end HttpFields
