import HttpFields.Reader
import HttpFields.Proofs.HttpDate.Reading

/-!
# `HttpFields.Proofs.HttpDate.Outcome` — what comes of a text that may be a date

A text is a date in one notation at most, and then names one day of the week, one date and one time of day. What comes
of it depends on the last two alone: their instant if the calendar has the date and a clock shows the time, and else
the text as it is. The name of the day of the week has to be there, but which one it is makes no difference.

* `IsDate.unique` — a text names one day of the week, one date and one time of day.
* `IsDate.rename` — another name of a day in place of the first.
* `IsDate.year_bounds` — the years of dates have four digits.
* `parse?_date_iff` — all together.
-/

namespace HttpFields

namespace HttpDate

/-! ## One date and one time of day -/

theorem short_monthName_injective :
    ∀ month month', short (monthName month) = short (monthName month') → month = month' := by
  decide

theorem IsTime.unique {time : Text} {t t' : TimeOfDay} (h : IsTime time t) (h' : IsTime time t') : t = t' := by
  obtain ⟨hour, minute, second, hsplit, -, -, -, rfl⟩ := splitOn_of_isTime h
  obtain ⟨hour', minute', second', hsplit', -, -, -, rfl⟩ := splitOn_of_isTime h'
  rw [hsplit] at hsplit'
  cases hsplit'
  rfl

theorem IsYear.unique {twoDigitYear : Bool} {s : Text} {year year' : Int} (h : IsYear twoDigitYear s year)
    (h' : IsYear twoDigitYear s year') : year = year' := by
  cases twoDigitYear <;> exact h.2.trans h'.2.symm

/-- Either way the year needs no more than four digits. -/
theorem IsYear.bounds {twoDigitYear : Bool} {s : Text} {year : Int} (h : IsYear twoDigitYear s year) :
    0 ≤ year ∧ year ≤ 9999 := by
  cases twoDigitYear with
  | true =>
    obtain ⟨hdigits, rfl⟩ := h
    have hlt := hdigits.value_lt
    split <;> omega
  | false =>
    obtain ⟨hdigits, rfl⟩ := h
    have hlt := hdigits.value_lt
    omega

/-- The parts of a date determine it. -/
theorem Parts.StandFor.unique {parts : Parts} {twoDigitYear : Bool} {d d' : CalendarDate} {t t' : TimeOfDay}
    (h : parts.StandFor twoDigitYear d t) (h' : parts.StandFor twoDigitYear d' t') : d = d' ∧ t = t' := by
  obtain ⟨year, month, day⟩ := d
  obtain ⟨year', month', day'⟩ := d'
  obtain rfl : year = year' := h.isYear.unique h'.isYear
  obtain rfl : month = month' := short_monthName_injective month month' (h.month_eq.symm.trans h'.month_eq)
  obtain rfl : day = day' := h.value_day.trans h'.value_day.symm
  exact ⟨rfl, h.isTime.unique h'.isTime⟩

/-- A text is cut into the same parts whichever date it is. -/
theorem date_unique_of_parts {cut : Option Parts} {twoDigitYear : Bool} {d d' : CalendarDate} {t t' : TimeOfDay}
    (h : ∃ parts, cut = some parts ∧ parts.StandFor twoDigitYear d t)
    (h' : ∃ parts, cut = some parts ∧ parts.StandFor twoDigitYear d' t') : d = d' ∧ t = t' := by
  obtain ⟨parts, rfl, hstand⟩ := h
  obtain ⟨parts', heq, hstand'⟩ := h'
  obtain rfl : parts = parts' := Option.some.inj heq
  exact hstand.unique hstand'

/-! ## The name of the day -/

theorem isAlpha_of_mem_weekdayName {w : Fin 7} : ∀ c ∈ weekdayName w, c.isAlpha = true := by
  have hall : ∀ w, (weekdayName w).all Char.isAlpha = true := by decide
  exact List.all_eq_true.mp (hall w)

theorem isAlpha_of_mem_short {w : Fin 7} : ∀ c ∈ short (weekdayName w), c.isAlpha = true := fun c hc =>
  isAlpha_of_mem_weekdayName c (List.mem_of_mem_take hc)

theorem weekdayName_injective : ∀ w w', weekdayName w = weekdayName w' → w = w' := by decide

theorem short_weekdayName_injective : ∀ w w', short (weekdayName w) = short (weekdayName w') → w = w' := by decide

/-- No name of a day is both short and full. -/
theorem short_ne_weekdayName : ∀ w w', short (weekdayName w) ≠ weekdayName w' := by decide

/-- Letters end at the first character that is none. -/
theorem letters_append_inj {x y s u : Text} {c d : Char} (hx : ∀ a ∈ x, a.isAlpha = true)
    (hy : ∀ a ∈ y, a.isAlpha = true) (hc : ¬ c.isAlpha = true) (hd : ¬ d.isAlpha = true) (h : x ++ c :: s = y ++ d :: u) : x = y ∧ c = d ∧ s = u := by
  have htake : (x ++ c :: s).takeWhile Char.isAlpha = x := by
    rw [List.takeWhile_append_of_pos hx, List.takeWhile_cons_of_neg hc, List.append_nil]
  have htake' : (y ++ d :: u).takeWhile Char.isAlpha = y := by
    rw [List.takeWhile_append_of_pos hy, List.takeWhile_cons_of_neg hd, List.append_nil]
  have hxy : x = y := by rw [← htake, h, htake']
  rw [hxy] at h
  obtain ⟨hcd, hsu⟩ := List.cons.inj (List.append_cancel_left h)
  exact ⟨hxy, hcd, hsu⟩

section Rename

variable {name rest : Text} {c : Char} {w : Fin 7} {d : CalendarDate} {t : TimeOfDay}

/-- The letters at the start of a date are the name of its day, and the name of any other day may stand there. -/
theorem IsFixed.rename (hname : ∀ a ∈ name, a.isAlpha = true) (hc : ¬ c.isAlpha = true)
    (h : IsFixed (name ++ c :: rest) w d t) :
    name = short (weekdayName w) ∧ ∀ w', IsFixed (short (weekdayName w') ++ c :: rest) w' d t := by
  obtain ⟨year, hyear, ⟨word, time, hword, htime, heq, hday⟩, hd⟩ := h
  obtain ⟨rfl, rfl, rfl⟩ := letters_append_inj hname isAlpha_of_mem_short hc (by decide) heq
  exact ⟨rfl, fun w' => ⟨year, hyear, ⟨word, time, hword, htime, rfl, hday⟩, hd⟩⟩

theorem IsDashed.rename (hname : ∀ a ∈ name, a.isAlpha = true) (hc : ¬ c.isAlpha = true)
    (h : IsDashed (name ++ c :: rest) w d t) :
    name = weekdayName w ∧ ∀ w', IsDashed (weekdayName w' ++ c :: rest) w' d t := by
  obtain ⟨year, hyear, ⟨word, time, hword, htime, heq, hday⟩, hd⟩ := h
  obtain ⟨rfl, rfl, rfl⟩ := letters_append_inj hname isAlpha_of_mem_weekdayName hc (by decide) heq
  exact ⟨rfl, fun w' => ⟨year, hyear, ⟨word, time, hword, htime, rfl, hday⟩, hd⟩⟩

theorem IsClock.rename (hname : ∀ a ∈ name, a.isAlpha = true) (hc : ¬ c.isAlpha = true)
    (h : IsClock (name ++ c :: rest) w d t) :
    name = short (weekdayName w) ∧ ∀ w', IsClock (short (weekdayName w') ++ c :: rest) w' d t := by
  obtain ⟨blank, word, time, year, hword, htime, hyear, heq, hday, hd⟩ := h
  obtain ⟨rfl, rfl, rfl⟩ := letters_append_inj hname isAlpha_of_mem_short hc (by decide) heq
  exact ⟨rfl, fun w' => ⟨blank, word, time, year, hword, htime, hyear, rfl, hday, hd⟩⟩

/-- **Any day of the week.** A date stays the same date if it has the name of another day in front, both names in
    short or both in full. -/
theorem IsDate.rename (hc : ¬ c.isAlpha = true) {w₁ w₂ : Fin 7} {kind : Text → Text} (hkind : kind = short ∨ kind = id)
    (h : IsDate (kind (weekdayName w₁) ++ c :: rest) w d t) : IsDate (kind (weekdayName w₂) ++ c :: rest) w₂ d t := by
  rcases hkind with rfl | rfl
  · rcases h with h | h | h
    · exact Or.inl ((h.rename isAlpha_of_mem_short hc).2 w₂)
    · exact absurd (h.rename isAlpha_of_mem_short hc).1 (short_ne_weekdayName w₁ w)
    · exact Or.inr (Or.inr ((h.rename isAlpha_of_mem_short hc).2 w₂))
  · rcases h with h | h | h
    · exact absurd (h.rename isAlpha_of_mem_weekdayName hc).1.symm (short_ne_weekdayName w w₁)
    · exact Or.inr (Or.inl ((h.rename isAlpha_of_mem_weekdayName hc).2 w₂))
    · exact absurd (h.rename isAlpha_of_mem_weekdayName hc).1.symm (short_ne_weekdayName w w₁)

end Rename

section Weekday

variable {v : Text} {w w' : Fin 7} {d d' : CalendarDate} {t t' : TimeOfDay}

theorem IsFixed.weekday_unique (h : IsFixed v w d t) (h' : IsFixed v w' d' t') : w = w' := by
  obtain ⟨year, -, ⟨word, time, -, -, rfl, -⟩, -⟩ := h
  exact short_weekdayName_injective w w' (h'.rename isAlpha_of_mem_short (by decide)).1

theorem IsDashed.weekday_unique (h : IsDashed v w d t) (h' : IsDashed v w' d' t') : w = w' := by
  obtain ⟨year, -, ⟨word, time, -, -, rfl, -⟩, -⟩ := h
  exact weekdayName_injective w w' (h'.rename isAlpha_of_mem_weekdayName (by decide)).1

theorem IsClock.weekday_unique (h : IsClock v w d t) (h' : IsClock v w' d' t') : w = w' := by
  obtain ⟨blank, word, time, year, -, -, -, rfl, -, -⟩ := h
  exact short_weekdayName_injective w w' (h'.rename isAlpha_of_mem_short (by decide)).1

/-- **One date.** A text is one day of the week, one date and one time of day at most, in whatever notation. -/
theorem IsDate.unique (h : IsDate v w d t) (h' : IsDate v w' d' t') : w = w' ∧ d = d' ∧ t = t' := by
  rcases h with h | h | h
  · rcases h' with h' | h' | h'
    · exact ⟨h.weekday_unique h', date_unique_of_parts (fixedParts?_of_isFixed h) (fixedParts?_of_isFixed h')⟩
    · exact absurd h' h.not_isDashed
    · exact absurd h' h.not_isClock
  · rcases h' with h' | h' | h'
    · exact absurd h h'.not_isDashed
    · exact ⟨h.weekday_unique h', date_unique_of_parts (dashedParts?_of_isDashed h) (dashedParts?_of_isDashed h')⟩
    · exact absurd h' h.not_isClock
  · rcases h' with h' | h' | h'
    · exact absurd h h'.not_isClock
    · exact absurd h h'.not_isClock
    · exact ⟨h.weekday_unique h', date_unique_of_parts (clockParts?_of_isClock h) (clockParts?_of_isClock h')⟩

/-- The year of a date has four digits. -/
theorem IsDate.year_bounds (h : IsDate v w d t) : 0 ≤ d.year ∧ d.year ≤ 9999 := by
  rcases h with h | h | h
  · obtain ⟨parts, -, hstand⟩ := fixedParts?_of_isFixed h
    exact hstand.isYear.bounds
  · obtain ⟨parts, -, hstand⟩ := dashedParts?_of_isDashed h
    exact hstand.isYear.bounds
  · obtain ⟨parts, -, hstand⟩ := clockParts?_of_isClock h
    exact hstand.isYear.bounds

end Weekday

/-! ## The outcome -/

variable {calendar : Calendar}

theorem meaning_eq_valid (hcal : calendar.IsGregorian) {v : Text} {w : Fin 7} {d : CalendarDate} {t : TimeOfDay}
    (h : IsDate v w d t) (hinstant : HasInstant d t) : meaning calendar v d t = valid ⟨countedSeconds d t, 0⟩ := by
  obtain ⟨hlow, hhigh⟩ := h.year_bounds
  rw [meaning, hcal.at?_eq_some hinstant hlow hhigh]

theorem meaning_eq_invalid (hcal : calendar.IsGregorian) {v : Text} {w : Fin 7} {d : CalendarDate} {t : TimeOfDay}
    (h : IsDate v w d t) (hinstant : ¬ HasInstant d t) : meaning calendar v d t = invalid v := by
  obtain ⟨hlow, hhigh⟩ := h.year_bounds
  rw [meaning, hcal.at?_eq_none hinstant hlow hhigh]

theorem parse?_of_isDate {v : Text} {w : Fin 7} {d : CalendarDate} {t : TimeOfDay} (h : IsDate v w d t) :
    Field.date.parse? v calendar = some (meaning calendar v d t) :=
  read_of_isDate h calendar

theorem parse?_eq_none_iff {v : Text} : Field.date.parse? v calendar = none ↔ ¬ ∃ w d t, IsDate v w d t := by
  rw [Option.eq_none_iff_forall_ne_some]
  constructor
  · rintro h ⟨w, d, t, hdate⟩
    exact h _ (parse?_of_isDate hdate)
  · rintro h value hvalue
    obtain ⟨w, d, t, hdate, -⟩ := read_eq_some_iff.mp hvalue
    exact h ⟨w, d, t, hdate⟩

theorem toInstant?_meaning (v : Text) (d : CalendarDate) (t : TimeOfDay) :
    (meaning calendar v d t).toInstant? = calendar.at? d t := by
  unfold meaning
  cases calendar.at? d t <;> rfl

/-- The name of the day of the week does not matter. -/
theorem parse?_rename {kind : Text → Text} (hkind : kind = short ∨ kind = id) {c : Char} (hc : ¬ c.isAlpha = true)
    (w w' : Fin 7) (rest : Text) :
    (Field.date.parse? (kind (weekdayName w) ++ c :: rest) calendar).map toInstant? =
      (Field.date.parse? (kind (weekdayName w') ++ c :: rest) calendar).map toInstant? := by
  by_cases h : ∃ w₀ d t, IsDate (kind (weekdayName w) ++ c :: rest) w₀ d t
  · obtain ⟨w₀, d, t, hdate⟩ := h
    have hrenamed : IsDate (kind (weekdayName w') ++ c :: rest) w' d t := hdate.rename hc hkind
    rw [parse?_of_isDate hdate, parse?_of_isDate hrenamed, Option.map_some, Option.map_some, toInstant?_meaning,
      toInstant?_meaning]
  · have h' : ¬ ∃ w₀ d t, IsDate (kind (weekdayName w') ++ c :: rest) w₀ d t := by
      rintro ⟨w₀, d, t, hdate⟩
      exact h ⟨w, d, t, hdate.rename hc hkind⟩
    rw [parse?_eq_none_iff.mpr h, parse?_eq_none_iff.mpr h']

end HttpDate

open HttpDate

/-- **Dates.** A text is read if it is a date in one of the three notations, of which it then has no other, and it
    names one day of the week, one date and one time of day. If there is an instant of the last two, it is what is
    read, counted in seconds from 1970 on; if not, the text is kept as it is. The name of the day in front may be that
    of any other. -/
theorem parse?_date_iff {calendar : Calendar} (hcal : calendar.IsGregorian) (v : Text) :
    (Field.date.parse? v calendar = none ↔ ¬ ∃ w d t, IsDate v w d t) ∧
    (∀ w d t w' d' t', ¬ (IsFixed v w d t ∧ IsDashed v w' d' t') ∧ ¬ (IsFixed v w d t ∧ IsClock v w' d' t') ∧
      ¬ (IsDashed v w d t ∧ IsClock v w' d' t')) ∧
    (∀ w d t, IsDate v w d t →
      (∀ w' d' t', IsDate v w' d' t' → w = w' ∧ d = d' ∧ t = t') ∧
        (HasInstant d t → Field.date.parse? v calendar = some (.valid ⟨countedSeconds d t, 0⟩)) ∧
        (¬ HasInstant d t → Field.date.parse? v calendar = some (.invalid v))) ∧
    ∀ kind w w' c rest, kind = short ∨ kind = id → ¬ c.isAlpha = true → v = kind (weekdayName w) ++ c :: rest →
      (Field.date.parse? v calendar).map toInstant? =
        (Field.date.parse? (kind (weekdayName w') ++ c :: rest) calendar).map toInstant? := by
  refine ⟨parse?_eq_none_iff, fun w d t w' d' t' => ⟨?_, ?_, ?_⟩, fun w d t hdate => ⟨?_, fun h => ?_, fun h => ?_⟩, ?_⟩
  · exact fun h => h.1.not_isDashed h.2
  · exact fun h => h.1.not_isClock h.2
  · exact fun h => h.1.not_isClock h.2
  · exact fun w' d' t' => hdate.unique
  · rw [parse?_of_isDate hdate, meaning_eq_valid hcal hdate h]
  · rw [parse?_of_isDate hdate, meaning_eq_invalid hcal hdate h]
  · rintro kind w w' c rest hkind hc rfl
    exact parse?_rename hkind hc w w' rest

/-- The last second of a leap day, with the name of the right day and with another, and a day that its year does not
    have. -/
theorem parse?_date_leapDay :
    let leapDay := "Tuesday, 29-Feb-00 23:59:59 GMT".toList
    let noDay := "Thu Feb 29 08:49:37 1900".toList
    Calendar.gregorian.IsGregorian ∧
    (IsDate leapDay 1 ⟨2000, 1, 29⟩ ⟨23, 59, 59⟩ ∧ HasInstant ⟨2000, 1, 29⟩ ⟨23, 59, 59⟩ ∧
      Field.date.parse? leapDay = some (.valid ⟨951868799, 0⟩)) ∧
    (IsDate noDay 3 ⟨1900, 1, 29⟩ ⟨8, 49, 37⟩ ∧ ¬ HasInstant ⟨1900, 1, 29⟩ ⟨8, 49, 37⟩ ∧
      Field.date.parse? noDay = some (.invalid noDay)) ∧
    (Field.date.parse? leapDay).map toInstant? =
      (Field.date.parse? "Monday, 29-Feb-00 23:59:59 GMT".toList).map toInstant? := by
  intro leapDay noDay
  have hlastSecond : IsTime "23:59:59".toList ⟨23, 59, 59⟩ :=
    ⟨"23".toList, "59".toList, "59".toList, by decide, by decide, by decide, rfl, rfl⟩
  have hleapDay : IsDate leapDay 1 ⟨2000, 1, 29⟩ ⟨23, 59, 59⟩ :=
    Or.inr (Or.inl ⟨"00".toList, by decide, ⟨"29".toList, "23:59:59".toList, by decide, hlastSecond, rfl, rfl⟩, rfl⟩)
  have hmorning : IsTime "08:49:37".toList ⟨8, 49, 37⟩ :=
    ⟨"08".toList, "49".toList, "37".toList, by decide, by decide, by decide, rfl, rfl⟩
  have hnoDay : IsDate noDay 3 ⟨1900, 1, 29⟩ ⟨8, 49, 37⟩ :=
    Or.inr (Or.inr ⟨[], "29".toList, "08:49:37".toList, "1900".toList, Or.inl ⟨rfl, by decide⟩, hmorning, by decide,
      rfl, rfl, rfl⟩)
  have hinstant : HasInstant ⟨2000, 1, 29⟩ ⟨23, 59, 59⟩ := by decide
  have hnoInstant : ¬ HasInstant ⟨1900, 1, 29⟩ ⟨8, 49, 37⟩ := by decide
  have hseconds : countedSeconds ⟨2000, 1, 29⟩ ⟨23, 59, 59⟩ = 951868799 := by
    rw [countedSeconds, ← CalendarDate.dayNumber_eq_countedDays]
    decide
  have hcal := Calendar.isGregorian_gregorian
  obtain ⟨-, -, hread, hrename⟩ := parse?_date_iff hcal leapDay
  obtain ⟨-, -, hkept, -⟩ := parse?_date_iff hcal noDay
  refine ⟨hcal, ⟨hleapDay, hinstant, ?_⟩, ⟨hnoDay, hnoInstant, (hkept _ _ _ hnoDay).2.2 hnoInstant⟩, ?_⟩
  · rw [← hseconds]
    exact (hread _ _ _ hleapDay).2.1 hinstant
  · exact hrename id 1 0 ',' " 29-Feb-00 23:59:59 GMT".toList (Or.inr rfl) (by decide) rfl

end HttpFields
