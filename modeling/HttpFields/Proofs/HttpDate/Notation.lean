import HttpFields.HttpDate.Format
import HttpFields.Proofs.Abnf.Exact
import HttpFields.Proofs.Calendar.Gregorian
import HttpFields.Proofs.Token

/-!
# `HttpFields.Proofs.HttpDate.Notation` — the notations of a date without a grammar

What each of the three notations writes a day of the week, a date and a time of day as. The rules for them are exact,
and their texts differ in the fourth character: a comma behind the short name of a day, a letter within a full one, or
a blank. So the grammar accepts the texts of the notations and nothing else, and the order of its alternatives does
not matter. No text is in two notations.

* `IsFixed`, `IsDashed`, `IsClock`, `IsDate` — the notations.
* `mem_dayNames_iff`, `mem_fullDayNames_iff`, `mem_monthNames_iff` — the names that the grammar knows.
* `IsFixed.not_isDashed`, `IsFixed.not_isClock`, `IsDashed.not_isClock` — the notations exclude one another.
* `accepts_grammar_iff`, `accepts_dashed_iff`, `accepts_clock_iff` — what the grammar accepts.
-/

namespace HttpFields.HttpDate

open Rule

/-! ## The notations -/

/-- So many decimal digits. -/
def IsDigits (count : Nat) (s : Text) : Prop := s.length = count ∧ ∀ c ∈ s, c.isDigit = true

instance (count : Nat) (s : Text) : Decidable (IsDigits count s) :=
  decidable_of_iff (s.length = count ∧ s.all Char.isDigit = true) (and_congr_right fun _ => List.all_eq_true)

/-- A time of day as it is written. -/
def IsTime (s : Text) (t : TimeOfDay) : Prop :=
  ∃ hour minute second, IsDigits 2 hour ∧ IsDigits 2 minute ∧ IsDigits 2 second ∧
    s = hour ++ ':' :: (minute ++ ':' :: second) ∧
    t = ⟨Decimal.value hour, Decimal.value minute, Decimal.value second⟩

/-- The text is the name of a day, a date with the day in front of its month and the given year, a time of day and the
    time zone. -/
def IsDayFirst (name : Text) (delimiter : Char) (year v : Text) (month : Fin 12) (day : Nat) (t : TimeOfDay) : Prop :=
  ∃ word time, IsDigits 2 word ∧ IsTime time t ∧
    v = name ++ ',' :: ' ' :: (word ++ delimiter :: (short (monthName month) ++ delimiter :: (year ++ ' ' ::
      (time ++ ' ' :: "GMT".toList)))) ∧
    day = Decimal.value word

/-- The text is the day of the week, the date and the time of day in the fixed notation. -/
def IsFixed (v : Text) (w : Fin 7) (d : CalendarDate) (t : TimeOfDay) : Prop :=
  ∃ year, IsDigits 4 year ∧ IsDayFirst (short (weekdayName w)) ' ' year v d.month d.day t ∧ d.year = Decimal.value year

/-- The text is the day of the week, the date and the time of day in the dashed notation. Its year has two digits and is
    one of the hundred years from 1950. -/
def IsDashed (v : Text) (w : Fin 7) (d : CalendarDate) (t : TimeOfDay) : Prop :=
  ∃ year, IsDigits 2 year ∧ IsDayFirst (weekdayName w) '-' year v d.month d.day t ∧
    d.year = if Decimal.value year < 50 then 2000 + Decimal.value year else 1900 + Decimal.value year

/-- The text is the day of the week, the date and the time of day in the clock notation. Its day has two digits, or a
    blank and a digit. -/
def IsClock (v : Text) (w : Fin 7) (d : CalendarDate) (t : TimeOfDay) : Prop :=
  ∃ blank day time year, (blank = [] ∧ IsDigits 2 day ∨ blank = [' '] ∧ IsDigits 1 day) ∧ IsTime time t ∧
    IsDigits 4 year ∧
    v = short (weekdayName w) ++ ' ' :: (short (monthName d.month) ++ ' ' :: (blank ++ (day ++ ' ' ::
      (time ++ ' ' :: year)))) ∧
    d.day = Decimal.value day ∧ d.year = Decimal.value year

/-- The text is the day of the week, the date and the time of day in one of the notations. The day of the week may be
    that of another date. -/
def IsDate (v : Text) (w : Fin 7) (d : CalendarDate) (t : TimeOfDay) : Prop :=
  IsFixed v w d t ∨ IsDashed v w d t ∨ IsClock v w d t

/-! ## Names -/

theorem mem_dayNames_iff {s : Text} : s ∈ dayNames ↔ ∃ w, short (weekdayName w) = s := by
  have heq : dayNames = List.ofFn fun w => short (weekdayName w) := by decide
  rw [heq, List.mem_ofFn]

theorem mem_fullDayNames_iff {s : Text} : s ∈ fullDayNames ↔ ∃ w, weekdayName w = s := by
  have heq : fullDayNames = List.ofFn weekdayName := by decide
  rw [heq, List.mem_ofFn]

theorem mem_monthNames_iff {s : Text} : s ∈ monthNames ↔ ∃ month, short (monthName month) = s := by
  have heq : monthNames = List.ofFn fun month => short (monthName month) := by decide
  rw [heq, List.mem_ofFn]

theorem length_short_weekdayName : ∀ w, (short (weekdayName w)).length = 3 := by decide

theorem length_short_monthName : ∀ month, (short (monthName month)).length = 3 := by decide

/-! ## The parts of a date -/

theorem derives_digits_iff {count : Nat} {s : Text} : Derives (digits count) s ↔ IsDigits count s := by
  rw [digits, exactly, oneOf_digit.derives_repetition_iff, IsDigits, and_comm]
  refine and_congr_left fun _ => ⟨fun h => Nat.le_antisymm (h.2 count rfl) h.1, ?_⟩
  rintro rfl
  exact ⟨Nat.le_refl _, fun n hn => Nat.le_of_eq (Option.some.inj hn)⟩

theorem exact_digits (count : Nat) : Exact (digits count) := oneOf_digit.exact_exactly count

theorem derives_anyOf_iff {names : List Text} {s : Text} : Derives (anyOf names) s ↔ s ∈ names := by
  rw [anyOf, derives_choice_iff]
  constructor
  · rintro ⟨r, hr, hs⟩
    obtain ⟨name, hname, rfl⟩ := List.mem_map.mp hr
    rw [derives_literal_iff.mp hs]
    exact hname
  · intro hs
    exact ⟨literal s, List.mem_map_of_mem hs, derives_literal_iff.mpr rfl⟩

/-- Names are exact if none is the start of another. -/
theorem exact_anyOf {names : List Text} (h : names.Pairwise fun a b => ¬ a <+: b ∧ ¬ b <+: a) :
    Exact (anyOf names) := by
  refine exact_choice ?_ (List.pairwise_map.mpr (h.imp ?_))
  · intro r hr
    obtain ⟨name, -, rfl⟩ := List.mem_map.mp hr
    exact exact_literal name
  · intro a b hab x y hx hy
    rw [derives_literal_iff.mp hx, derives_literal_iff.mp hy]
    exact hab

theorem derives_timeOfDay_iff {s : Text} : Derives timeOfDay s ↔ ∃ t, IsTime s t := by
  rw [timeOfDay]
  simp only [derives_delimited_iff, derives_sequence_singleton_iff, derives_digits_iff]
  constructor
  · rintro ⟨hour, _, rfl, hhour, minute, second, rfl, hminute, hsecond⟩
    exact ⟨_, hour, minute, second, hhour, hminute, hsecond, rfl, rfl⟩
  · rintro ⟨_, hour, minute, second, hhour, hminute, hsecond, rfl, -⟩
    exact ⟨hour, _, rfl, hhour, minute, second, rfl, hminute, hsecond⟩

theorem exact_timeOfDay : Exact timeOfDay := by
  apply exact_sequence
  simp only [List.forall_mem_cons]
  exact ⟨exact_digits 2, exact_terminal ':', exact_digits 2, exact_terminal ':', exact_digits 2, nofun⟩

theorem exact_dayNames : Exact (anyOf dayNames) := exact_anyOf (by decide)

theorem exact_fullDayNames : Exact (anyOf fullDayNames) := exact_anyOf (by decide)

theorem exact_monthNames : Exact (anyOf monthNames) := exact_anyOf (by decide)

/-! ## The rules for the notations -/

/-- The rule for a notation with the day in front of its month. -/
def dayFirst (names : List Text) (delimiter : Char) (width : Nat) : Rule :=
  .sequence [anyOf names, ',', ' ', digits 2, delimiter, anyOf monthNames, delimiter, digits width, ' ', timeOfDay, ' ',
    literal "GMT".toList]

theorem derives_dayFirst_iff {names : List Text} {delimiter : Char} {width : Nat} {v : Text} :
    Derives (dayFirst names delimiter width) v ↔
      ∃ name year month day t, name ∈ names ∧ IsDigits width year ∧ IsDayFirst name delimiter year v month day t := by
  rw [dayFirst]
  simp only [derives_delimited_iff, derives_terminal_cons_iff, derives_sequence_singleton_iff, derives_digits_iff,
    derives_anyOf_iff, derives_timeOfDay_iff, derives_literal_iff]
  constructor
  · rintro ⟨name, _, rfl, hname, _, rfl, day, _, rfl, hday, month, _, rfl, hmonth, year, _, rfl, hyear, time, _, rfl,
      ⟨t, ht⟩, rfl⟩
    -- the date is determined by the parts, but for the month, which is found by its name
    obtain ⟨month, rfl⟩ := mem_monthNames_iff.mp hmonth
    exact ⟨name, year, month, _, t, hname, hyear, day, time, hday, ht, rfl, rfl⟩
  · rintro ⟨name, year, month, _, t, hname, hyear, day, time, hday, ht, rfl, -⟩
    exact ⟨name, _, rfl, hname, _, rfl, day, _, rfl, hday, _, _, rfl, mem_monthNames_iff.mpr ⟨month, rfl⟩, year, _, rfl,
      hyear, time, _, rfl, ⟨t, ht⟩, rfl⟩

theorem exact_dayFirst {names : List Text} (h : Exact (anyOf names)) (delimiter : Char) (width : Nat) :
    Exact (dayFirst names delimiter width) := by
  apply exact_sequence
  simp only [List.forall_mem_cons]
  exact ⟨h, exact_terminal ',', exact_terminal ' ', exact_digits 2, exact_terminal delimiter, exact_monthNames,
    exact_terminal delimiter, exact_digits width, exact_terminal ' ', exact_timeOfDay, exact_terminal ' ',
    exact_literal _, nofun⟩

theorem exact_fixed : Exact fixed := exact_dayFirst exact_dayNames ' ' 4

theorem exact_dashed : Exact dashed := exact_dayFirst exact_fullDayNames '-' 2

theorem derives_fixed_iff {v : Text} : Derives fixed v ↔ ∃ w d t, IsFixed v w d t := by
  show Derives (dayFirst dayNames ' ' 4) v ↔ _
  rw [derives_dayFirst_iff]
  constructor
  · rintro ⟨name, year, month, day, t, hname, hyear, h⟩
    obtain ⟨w, rfl⟩ := mem_dayNames_iff.mp hname
    exact ⟨w, ⟨_, month, day⟩, t, year, hyear, h, rfl⟩
  · rintro ⟨w, d, t, year, hyear, h, -⟩
    exact ⟨_, year, d.month, d.day, t, mem_dayNames_iff.mpr ⟨w, rfl⟩, hyear, h⟩

theorem derives_dashed_iff {v : Text} : Derives dashed v ↔ ∃ w d t, IsDashed v w d t := by
  show Derives (dayFirst fullDayNames '-' 2) v ↔ _
  rw [derives_dayFirst_iff]
  constructor
  · rintro ⟨name, year, month, day, t, hname, hyear, h⟩
    obtain ⟨w, rfl⟩ := mem_fullDayNames_iff.mp hname
    exact ⟨w, ⟨_, month, day⟩, t, year, hyear, h, rfl⟩
  · rintro ⟨w, d, t, year, hyear, h, -⟩
    exact ⟨_, year, d.month, d.day, t, mem_fullDayNames_iff.mpr ⟨w, rfl⟩, hyear, h⟩

/-- The day of the clock notation. -/
def clockDay : Rule := .choice [digits 2, .sequence [' ', CharClass.digit]]

theorem derives_clockDay_iff {s : Text} :
    Derives clockDay s ↔
      ∃ blank day, (blank = [] ∧ IsDigits 2 day ∨ blank = [' '] ∧ IsDigits 1 day) ∧ s = blank ++ day := by
  rw [clockDay, derives_choice_pair_iff, derives_digits_iff, derives_terminal_cons_iff]
  simp only [derives_sequence_singleton_iff, oneOf_digit.derives_iff]
  constructor
  · rintro (h | ⟨_, rfl, c, hc, rfl⟩)
    · exact ⟨[], s, Or.inl ⟨rfl, h⟩, rfl⟩
    · refine ⟨[' '], [c], Or.inr ⟨rfl, rfl, fun d hd => ?_⟩, rfl⟩
      rw [List.mem_singleton.mp hd]
      exact hc
  · rintro ⟨_, day, ⟨rfl, h⟩ | ⟨rfl, hlen, h⟩, rfl⟩
    · exact Or.inl h
    · obtain ⟨c, rfl⟩ := List.length_eq_one_iff.mp hlen
      exact Or.inr ⟨[c], rfl, c, h c List.mem_cons_self, rfl⟩

/-- The two forms of a day differ in the first character. -/
theorem exact_clockDay : Exact clockDay := by
  have hblank : Exact (.sequence [' ', CharClass.digit]) := by
    apply exact_sequence
    simp only [List.forall_mem_cons]
    exact ⟨exact_terminal ' ', oneOf_digit.exact, nofun⟩
  have hapart : Apart (digits 2) (.sequence [' ', CharClass.digit]) := by
    refine apart_of_getElem?_ne 0 fun x y hx hy => ?_
    obtain ⟨hlen, hdigits⟩ := derives_digits_iff.mp hx
    obtain ⟨u, rfl, -⟩ := derives_terminal_cons_iff.mp hy
    have hpos : 0 < x.length := hlen ▸ Nat.two_pos
    -- the one starts with a digit, the other with a blank
    refine ⟨hpos, Nat.succ_pos _, fun h => ?_⟩
    rw [List.getElem?_eq_getElem hpos] at h
    have hdigit := hdigits _ (List.getElem_mem hpos)
    rw [Option.some.inj h] at hdigit
    exact absurd hdigit (by decide)
  refine exact_choice ?_ (List.pairwise_pair.mpr hapart)
  simp only [List.forall_mem_cons]
  exact ⟨exact_digits 2, hblank, nofun⟩

theorem derives_clock_iff {v : Text} : Derives clock v ↔ ∃ w d t, IsClock v w d t := by
  show Derives (.sequence [anyOf dayNames, ' ', anyOf monthNames, ' ', clockDay, ' ', timeOfDay, ' ', digits 4]) v ↔ _
  simp only [derives_delimited_iff, derives_sequence_singleton_iff, derives_digits_iff, derives_anyOf_iff,
    derives_timeOfDay_iff, derives_clockDay_iff]
  constructor
  · rintro ⟨name, _, rfl, hname, month, _, rfl, hmonth, _, _, rfl, ⟨blank, day, hday, rfl⟩, time, year, rfl, ⟨t, ht⟩,
      hyear⟩
    obtain ⟨w, rfl⟩ := mem_dayNames_iff.mp hname
    obtain ⟨month, rfl⟩ := mem_monthNames_iff.mp hmonth
    refine ⟨w, ⟨_, month, _⟩, t, blank, day, time, year, hday, ht, hyear, ?_, rfl, rfl⟩
    rw [List.append_assoc]
  · rintro ⟨w, d, t, blank, day, time, year, hday, ht, hyear, rfl, -, -⟩
    refine ⟨_, _, rfl, mem_dayNames_iff.mpr ⟨w, rfl⟩, _, _, rfl, mem_monthNames_iff.mpr ⟨d.month, rfl⟩, blank ++ day, _,
      ?_, ⟨blank, day, hday, rfl⟩, time, year, rfl, ⟨t, ht⟩, hyear⟩
    rw [List.append_assoc]

theorem exact_clock : Exact clock := by
  apply exact_sequence
  simp only [List.forall_mem_cons]
  exact ⟨exact_dayNames, exact_terminal ' ', exact_monthNames, exact_terminal ' ', exact_clockDay, exact_terminal ' ',
    exact_timeOfDay, exact_terminal ' ', exact_digits 4, nofun⟩

/-! ## One notation -/

theorem getElem?_three (w : Fin 7) (c : Char) (s : Text) : (short (weekdayName w) ++ c :: s)[3]? = some c := by
  rw [List.getElem?_append_right (Nat.le_of_eq (length_short_weekdayName w)), length_short_weekdayName]
  rfl

theorem IsDayFirst.getElem?_three {w : Fin 7} {delimiter : Char} {year v : Text} {month : Fin 12} {day : Nat}
    {t : TimeOfDay} (h : IsDayFirst (short (weekdayName w)) delimiter year v month day t) : v[3]? = some ',' := by
  obtain ⟨word, time, -, -, rfl, -⟩ := h
  exact HttpDate.getElem?_three w ',' _

theorem IsFixed.getElem?_three {v : Text} {w : Fin 7} {d : CalendarDate} {t : TimeOfDay} (h : IsFixed v w d t) :
    v[3]? = some ',' := by
  obtain ⟨year, -, h, -⟩ := h
  exact h.getElem?_three

theorem IsClock.getElem?_three {v : Text} {w : Fin 7} {d : CalendarDate} {t : TimeOfDay} (h : IsClock v w d t) :
    v[3]? = some ' ' := by
  obtain ⟨blank, day, time, year, -, -, -, rfl, -⟩ := h
  exact HttpDate.getElem?_three w ' ' _

theorem IsDashed.getElem?_three {v : Text} {w : Fin 7} {d : CalendarDate} {t : TimeOfDay} (h : IsDashed v w d t) :
    ∃ c, v[3]? = some c ∧ c ≠ ',' ∧ c ≠ ' ' := by
  have hletter : ∀ w, 3 < (weekdayName w).length ∧ (weekdayName w)[3]? ≠ some ',' ∧ (weekdayName w)[3]? ≠ some ' ' := by
    decide
  obtain ⟨year, -, ⟨day, time, -, -, rfl, -⟩, -⟩ := h
  obtain ⟨hlen, hcomma, hspace⟩ := hletter w
  rw [List.getElem?_eq_getElem hlen] at hcomma hspace
  refine ⟨(weekdayName w)[3], ?_, fun h => hcomma (congrArg some h), fun h => hspace (congrArg some h)⟩
  rw [List.getElem?_append_left hlen, List.getElem?_eq_getElem hlen]

section Apart

variable {v : Text} {w w' : Fin 7} {d d' : CalendarDate} {t t' : TimeOfDay}

theorem not_isDashed_of_comma (hcomma : v[3]? = some ',') : ¬ IsDashed v w d t := by
  intro h
  obtain ⟨c, hc, hne, -⟩ := h.getElem?_three
  rw [hcomma] at hc
  exact hne (Option.some.inj hc).symm

theorem not_isClock_of_comma (hcomma : v[3]? = some ',') : ¬ IsClock v w d t := by
  intro h
  have hspace := h.getElem?_three
  rw [hcomma] at hspace
  cases hspace

theorem IsFixed.not_isDashed (h : IsFixed v w d t) : ¬ IsDashed v w' d' t' := not_isDashed_of_comma h.getElem?_three

theorem IsFixed.not_isClock (h : IsFixed v w d t) : ¬ IsClock v w' d' t' := not_isClock_of_comma h.getElem?_three

theorem IsDashed.not_isClock (h : IsDashed v w d t) : ¬ IsClock v w' d' t' := by
  intro h'
  obtain ⟨c, hc, -, hne⟩ := h.getElem?_three
  rw [h'.getElem?_three] at hc
  exact hne (Option.some.inj hc).symm

end Apart

/-! ## The grammar -/

/-- Rules whose texts have different fourth characters are apart. -/
theorem apart_of_fourth {r r' : Rule} {P Q : Char → Prop} (hr : ∀ x, Derives r x → ∃ c, x[3]? = some c ∧ P c)
    (hr' : ∀ y, Derives r' y → ∃ c, y[3]? = some c ∧ Q c) (hne : ∀ c, P c → ¬ Q c) : Apart r r' := by
  refine apart_of_getElem?_ne 3 fun x y hx hy => ?_
  obtain ⟨c, hc, hP⟩ := hr x hx
  obtain ⟨c', hc', hQ⟩ := hr' y hy
  refine ⟨(List.getElem?_eq_some_iff.mp hc).1, (List.getElem?_eq_some_iff.mp hc').1, fun h => ?_⟩
  rw [hc, hc'] at h
  exact hne c hP (Option.some.inj h ▸ hQ)

theorem exact_grammar : Exact grammar := by
  have hfixed : ∀ x, Derives fixed x → ∃ c, x[3]? = some c ∧ c = ',' := by
    intro x hx
    obtain ⟨w, d, t, h⟩ := derives_fixed_iff.mp hx
    exact ⟨',', h.getElem?_three, rfl⟩
  have hdashed : ∀ x, Derives dashed x → ∃ c, x[3]? = some c ∧ c ≠ ',' ∧ c ≠ ' ' := by
    intro x hx
    obtain ⟨w, d, t, h⟩ := derives_dashed_iff.mp hx
    exact h.getElem?_three
  have hclock : ∀ x, Derives clock x → ∃ c, x[3]? = some c ∧ c = ' ' := by
    intro x hx
    obtain ⟨w, d, t, h⟩ := derives_clock_iff.mp hx
    exact ⟨' ', h.getElem?_three, rfl⟩
  -- the texts of the notations differ in the fourth character, so the order of the alternatives is of no account
  have hfixed_dashed : Apart fixed dashed := apart_of_fourth hfixed hdashed fun _ h h' => h'.1 h
  have hfixed_clock : Apart fixed clock := apart_of_fourth hfixed hclock (by rintro _ rfl h; cases h)
  have hdashed_clock : Apart dashed clock := apart_of_fourth hdashed hclock fun _ h h' => h.2 h'
  refine exact_choice ?_ ?_
  · simp only [List.forall_mem_cons]
    exact ⟨exact_fixed, exact_dashed, exact_clock, nofun⟩
  · simp only [List.pairwise_cons, List.forall_mem_cons]
    exact ⟨⟨hfixed_dashed, hfixed_clock, nofun⟩, ⟨hdashed_clock, nofun⟩, nofun, .nil⟩

/-- **What is accepted.** The grammar accepts the texts of the three notations. -/
theorem accepts_grammar_iff {v : Text} : grammar.accepts v = true ↔ ∃ w d t, IsDate v w d t := by
  rw [exact_grammar.accepts_iff, grammar, derives_choice_iff]
  simp only [List.mem_cons, List.not_mem_nil, or_false, exists_eq_or_imp, exists_eq_left, derives_fixed_iff,
    derives_dashed_iff, derives_clock_iff, IsDate, exists_or]

theorem accepts_dashed_iff {v : Text} : dashed.accepts v = true ↔ ∃ w d t, IsDashed v w d t :=
  exact_dashed.accepts_iff.trans derives_dashed_iff

theorem accepts_clock_iff {v : Text} : clock.accepts v = true ↔ ∃ w d t, IsClock v w d t :=
  exact_clock.accepts_iff.trans derives_clock_iff

end HttpFields.HttpDate
