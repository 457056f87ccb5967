import HttpFields.Proofs.HttpDate.Outcome

/-!
# `HttpFields.Proofs.HttpDate.RoundTrip` — a date that was written is read back

An instant is written as the day of the week, the date and the time of day that it has, and the last two lead back to
its second. The fixed notation has room for four digits of a year, and that is where the round trip ends: a year that
needs a sign is written as no date at all. All this is by the laws of the calendar, and does not depend on how it
counts days.

* `isDayFirst_write` — what an instant is written as.
* `isFixed_write`, `not_isDate_write` — a year of four digits, and any other.
* `parse_write_date` — which dates are read back.
-/

namespace HttpFields

namespace HttpDate

/-! ## What is written -/

theorem isDigits_padded {width n : Nat} (hwidth : 0 < width) (h : n < 10 ^ width) :
    IsDigits width (Decimal.padded width n) :=
  ⟨Decimal.length_padded hwidth h, fun _ => Decimal.isDigit_of_mem_padded⟩

theorem isTime_padded {t : TimeOfDay} (h : t.IsShown) :
    IsTime (Decimal.padded 2 t.hour ++ ':' :: (Decimal.padded 2 t.minute ++ ':' :: Decimal.padded 2 t.second)) t := by
  obtain ⟨hhour, hminute, hsecond⟩ := h
  refine ⟨_, _, _, isDigits_padded Nat.two_pos ?_, isDigits_padded Nat.two_pos ?_, isDigits_padded Nat.two_pos ?_, rfl,
    ?_⟩
  · omega
  · omega
  · omega
  · rw [Decimal.value_padded, Decimal.value_padded, Decimal.value_padded]

/-- The year stands behind twelve characters. -/
theorem IsDayFirst.drop_twelve {w : Fin 7} {delimiter : Char} {year v : Text} {month : Fin 12} {day : Nat}
    {t : TimeOfDay} (h : IsDayFirst (short (weekdayName w)) delimiter year v month day t) :
    ∃ rest, v.drop 12 = year ++ ' ' :: rest := by
  obtain ⟨word, time, ⟨hword, -⟩, -, rfl, -⟩ := h
  have hfront : (short (weekdayName w) ++ ',' :: ' ' :: (word ++ delimiter :: (short (monthName month) ++
      [delimiter]))).length = 12 := by
    simp only [List.length_append, List.length_cons, List.length_nil, length_short_weekdayName, hword,
      length_short_monthName]
  refine ⟨time ++ ' ' :: "GMT".toList, Eq.trans (congrArg (List.drop 12) ?_) (List.drop_left' hfront)⟩
  simp only [List.append_assoc, List.cons_append, List.nil_append]

section Written

variable {calendar : Calendar} (hcal : calendar.IsGregorian) {i : Instant} {d : CalendarDate} {t : TimeOfDay}
include hcal

/-- The pattern is gone through from left to right, a letter or a character at a time. -/
theorem write_valid_eq (hi : i.IsAt d t) {year : Text}
    (hyear : ∀ pattern, calendar.format ('%' :: 'Y' :: pattern) i = year ++ calendar.format pattern i) :
    write (.valid i) calendar = short (weekdayName d.dayOfWeek) ++ ',' :: ' ' :: (Decimal.padded 2 d.day ++ ' ' ::
      (short (monthName d.month) ++ ' ' :: (year ++ ' ' :: ((Decimal.padded 2 t.hour ++ ':' ::
        (Decimal.padded 2 t.minute ++ ':' :: Decimal.padded 2 t.second)) ++ ' ' :: "GMT".toList)))) := by
  have hpattern : fixedPattern = ['%', 'a', ',', ' ', '%', 'd', ' ', '%', 'b', ' ', '%', 'Y', ' ', '%', 'H', ':', '%',
      'M', ':', '%', 'S', ' ', 'G', 'M', 'T'] := rfl
  rw [write, hpattern]
  simp (disch := decide) only [hcal.format_weekday _ _ _ _ hi, hcal.format_day _ _ _ _ hi,
    hcal.format_month _ _ _ _ hi, hyear, hcal.format_hour _ _ _ _ hi, hcal.format_minute _ _ _ _ hi,
    hcal.format_second _ _ _ _ hi, hcal.format_cons, hcal.format_nil, List.append_assoc, List.cons_append]
  rfl

/-- **What is written.** An instant is written as its day of the week, its date and its time of day, whatever its year
    is written as. -/
theorem isDayFirst_write (hi : i.IsAt d t) {year : Text}
    (hyear : ∀ pattern, calendar.format ('%' :: 'Y' :: pattern) i = year ++ calendar.format pattern i) :
    IsDayFirst (short (weekdayName d.dayOfWeek)) ' ' year (write (.valid i) calendar) d.month d.day t := by
  have hday : d.day < 10 ^ 2 :=
    Nat.lt_of_le_of_lt (Nat.le_trans hi.1.1.2 (CalendarDate.daysOfMonth_le d.year d.month)) (by decide)
  exact ⟨_, _, isDigits_padded Nat.two_pos hday, isTime_padded hi.1.2, write_valid_eq hcal hi hyear,
    (Decimal.value_padded 2 d.day).symm⟩

/-- An instant whose year has four digits is written in the fixed notation. -/
theorem isFixed_write (hi : i.IsAt d t) (hlow : 0 ≤ d.year) (hhigh : d.year ≤ 9999) :
    IsFixed (write (.valid i) calendar) d.dayOfWeek d t := by
  refine ⟨Decimal.padded 4 d.year.toNat, isDigits_padded (by decide) (by omega),
    isDayFirst_write hcal hi fun pattern => hcal.format_year pattern i d t hi hlow hhigh, ?_⟩
  rw [Decimal.value_padded]
  omega

/-- **No room for a sign.** An instant whose year needs a sign or more than four digits is written as no date. -/
theorem not_isDate_write (hi : i.IsAt d t) (hyear : d.year < 0 ∨ 9999 < d.year) (w : Fin 7) (d' : CalendarDate)
    (t' : TimeOfDay) : ¬ IsDate (write (.valid i) calendar) w d' t' := by
  have hwritten : IsDayFirst (short (weekdayName d.dayOfWeek)) ' '
      ((if d.year < 0 then '-' else '+') :: Decimal.padded 4 d.year.natAbs) (write (.valid i) calendar)
      d.month d.day t :=
    isDayFirst_write hcal hi fun pattern => hcal.format_signedYear pattern i d t hi hyear
  rintro (⟨year, ⟨hlen, hdigits⟩, hfirst, -⟩ | h | h)
  · -- a digit would stand where the sign does
    obtain ⟨rest, hrest⟩ := hfirst.drop_twelve
    obtain ⟨rest', hrest'⟩ := hwritten.drop_twelve
    have hsign : (if d.year < 0 then '-' else '+').isDigit = false := by split <;> rfl
    rw [hrest] at hrest'
    cases year with
    | nil => cases hlen
    | cons c year =>
      have hc := hdigits c List.mem_cons_self
      rw [(List.cons.inj hrest').1, hsign] at hc
      cases hc
  · -- the other notations have no comma behind three letters
    exact not_isDashed_of_comma hwritten.getElem?_three h
  · exact not_isClock_of_comma hwritten.getElem?_three h

/-! ## What is read back -/

theorem parse?_write_valid (hi : i.IsAt d t) (hlow : 0 ≤ d.year) (hhigh : d.year ≤ 9999) :
    Field.date.parse? (write (.valid i) calendar) calendar = some (.valid ⟨i.seconds, 0⟩) := by
  have hdate : IsDate (write (.valid i) calendar) d.dayOfWeek d t := Or.inl (isFixed_write hcal hi hlow hhigh)
  rw [parse?_of_isDate hdate, meaning_eq_valid hcal hdate hi.1, hi.2]

theorem meaning_eq_invalid_iff {v text : Text} {w : Fin 7} (h : IsDate v w d t) :
    meaning calendar v d t = .invalid text ↔ v = text ∧ ¬ HasInstant d t := by
  by_cases hinstant : HasInstant d t
  · rw [meaning_eq_valid hcal h hinstant]
    refine ⟨fun h => ?_, fun h => absurd hinstant h.2⟩
    cases h
  · rw [meaning_eq_invalid hcal h hinstant, and_iff_left hinstant]
    exact ⟨invalid.inj, congrArg invalid⟩

/-- **Texts kept as they are.** A text is kept if it is a date, but none that the calendar has. -/
theorem parse?_eq_some_invalid_iff {text : Text} :
    Field.date.parse? text calendar = some (.invalid text) ↔
      (∃ w d t, IsDate text w d t) ∧ ∀ w d t, IsDate text w d t → ¬ HasInstant d t := by
  constructor
  · intro h
    obtain ⟨w, d, t, hdate, -⟩ := read_eq_some_iff.mp h
    refine ⟨⟨w, d, t, hdate⟩, fun w d t hdate => ?_⟩
    exact ((meaning_eq_invalid_iff hcal hdate).mp (Option.some.inj ((parse?_of_isDate hdate).symm.trans h))).2
  · rintro ⟨⟨w, d, t, hdate⟩, hnone⟩
    rw [parse?_of_isDate hdate, (meaning_eq_invalid_iff hcal hdate).mpr ⟨rfl, hnone w d t hdate⟩]

/-- **What was read is read back.** -/
theorem parse?_write_of_parse? {v : Text} {h : HttpDate} (hv : Field.date.parse? v calendar = some h) :
    Field.date.parse? (write h calendar) calendar = some h := by
  obtain ⟨w, d, t, hdate, hmeaning⟩ := read_eq_some_iff.mp hv
  by_cases hinstant : HasInstant d t
  · -- a date that was read has a year of four digits, and its instant starts a second
    rw [meaning_eq_valid hcal hdate hinstant] at hmeaning
    obtain ⟨hlow, hhigh⟩ := hdate.year_bounds
    rw [hmeaning]
    exact parse?_write_valid hcal ⟨hinstant, rfl⟩ hlow hhigh
  · -- the text was kept, so the same text is read again
    rw [meaning_eq_invalid hcal hdate hinstant] at hmeaning
    subst hmeaning
    exact hv

end Written

end HttpDate

open HttpDate

/-- **Dates are read back.** An instant has one date and one time of day. It is written as these and their day of the
    week in the fixed notation, and read back without its nanoseconds, if its year has four digits, and else is
    refused. A text kept as it is is read back if it is a date, but one that no calendar has. So whatever a date was
    written as, what is read is read back once it is written. -/
theorem parse_write_date {calendar : Calendar} (hcal : calendar.IsGregorian) :
    (∀ i : Instant, ∃ d t, i.IsAt d t ∧ ∀ d' t', i.IsAt d' t' → d = d' ∧ t = t') ∧
    (∀ (i : Instant) d t, i.IsAt d t → 0 ≤ d.year → d.year ≤ 9999 →
      IsFixed (write (.valid i) calendar) d.dayOfWeek d t ∧
        Field.date.parse (write (.valid i) calendar) calendar = .ok (.valid ⟨i.seconds, 0⟩) ∧
        (Field.date.parse (write (.valid i) calendar) calendar = .ok (.valid i) ↔ i.nanos = 0)) ∧
    (∀ (i : Instant) d t, i.IsAt d t → d.year < 0 ∨ 9999 < d.year →
      Field.date.parse (write (.valid i) calendar) calendar = .error (.invalid .date (write (.valid i) calendar))) ∧
    (∀ text, Field.date.parse (write (.invalid text) calendar) calendar = .ok (.invalid text) ↔
      (∃ w d t, IsDate text w d t) ∧ ∀ w d t, IsDate text w d t → ¬ HasInstant d t) ∧
    ∀ v h, Field.date.parse v calendar = .ok h → Field.date.parse (write h calendar) calendar = .ok h := by
  -- the parts in order: the date of an instant, a year of four digits, any other year, a text kept as it is, and what
  -- was read
  refine ⟨fun i => ⟨i.date, i.time, i.isAt_date_time, fun d t => i.isAt_date_time.unique⟩,
    fun i d t hi hlow hhigh => ?_, fun i d t hi hyear => ?_, fun text => ?_, fun v h hv => ?_⟩
  · have hparse : Field.date.parse (write (.valid i) calendar) calendar = .ok (.valid ⟨i.seconds, 0⟩) :=
      Field.parse_eq_ok_iff.mpr (parse?_write_valid hcal hi hlow hhigh)
    refine ⟨isFixed_write hcal hi hlow hhigh, hparse, ?_⟩
    obtain ⟨seconds, nanos⟩ := i
    rw [hparse, Except.ok.injEq, valid.injEq, Instant.mk.injEq, and_iff_right rfl]
    exact eq_comm
  · refine Field.parse_eq_error_iff.mpr ⟨parse?_eq_none_iff.mpr ?_, rfl⟩
    rintro ⟨w, d', t', hdate⟩
    exact not_isDate_write hcal hi hyear w d' t' hdate
  · rw [Field.parse_eq_ok_iff]
    exact parse?_eq_some_invalid_iff hcal
  · rw [Field.parse_eq_ok_iff] at hv ⊢
    exact parse?_write_of_parse? hcal hv

/-- The start of 1970, a Thursday, is read back, a dashed date is once it is written, and the start of the year 10000 is
    refused. -/
theorem parse_write_date_epoch :
    let epoch : Instant := ⟨0, 0⟩
    let beyond : Instant := ⟨253402300800, 0⟩
    let morning : Instant := ⟨784111777, 0⟩
    Calendar.gregorian.IsGregorian ∧
    (epoch.IsAt ⟨1970, 0, 1⟩ ⟨0, 0, 0⟩ ∧ IsFixed (write (.valid epoch) .gregorian) 3 ⟨1970, 0, 1⟩ ⟨0, 0, 0⟩ ∧
      Field.date.parse (write (.valid epoch) .gregorian) = .ok (.valid epoch)) ∧
    (beyond.IsAt ⟨10000, 0, 1⟩ ⟨0, 0, 0⟩ ∧
      Field.date.parse (write (.valid beyond) .gregorian) =
        .error (.invalid .date (write (.valid beyond) .gregorian))) ∧
    Field.date.parse "Sunday, 06-Nov-94 08:49:37 GMT".toList = .ok (.valid morning) ∧
      Field.date.parse (write (.valid morning) .gregorian) = .ok (.valid morning) := by
  intro epoch beyond morning
  have hepoch : epoch.IsAt ⟨1970, 0, 1⟩ ⟨0, 0, 0⟩ := by
    have hdate : epoch.date = ⟨1970, 0, 1⟩ ∧ epoch.time = ⟨0, 0, 0⟩ := by decide
    rw [← hdate.1, ← hdate.2]
    exact epoch.isAt_date_time
  have hbeyond : beyond.IsAt ⟨10000, 0, 1⟩ ⟨0, 0, 0⟩ := by
    have hdate : beyond.date = ⟨10000, 0, 1⟩ ∧ beyond.time = ⟨0, 0, 0⟩ := by decide
    rw [← hdate.1, ← hdate.2]
    exact beyond.isAt_date_time
  have hweekday : CalendarDate.dayOfWeek ⟨1970, 0, 1⟩ = 3 := by
    rw [← hepoch.dayOfWeek_eq]
    rfl
  have hdashed : Field.date.parse? "Sunday, 06-Nov-94 08:49:37 GMT".toList = some (.valid morning) := by
    decide +kernel
  have hdashed := Field.parse_eq_ok_iff.mpr hdashed
  obtain ⟨-, hread, hrefused, -, hagain⟩ := parse_write_date Calendar.isGregorian_gregorian
  obtain ⟨hfixed, hparse, -⟩ := hread epoch _ _ hepoch (by decide) (by decide)
  refine ⟨Calendar.isGregorian_gregorian, ⟨hepoch, hweekday ▸ hfixed, hparse⟩,
    ⟨hbeyond, hrefused beyond _ _ hbeyond (Or.inr (by decide))⟩, hdashed, hagain _ _ hdashed⟩

end HttpFields
