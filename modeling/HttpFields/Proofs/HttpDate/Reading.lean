import HttpFields.HttpDate.Basic
import HttpFields.Proofs.Decimal
import HttpFields.Proofs.HttpDate.Notation

/-!
# `HttpFields.Proofs.HttpDate.Reading` — how a date is read

Each notation is taken apart in a way of its own, at commas, dashes, spaces or white space. What is between them are
words of letters and digits, so that no cut is made inside of one, and each way recovers the parts that the notation
was put together from. The parts then stand for the same date and time of day in all notations, whatever calendar is
asked for the instant of these.

* `IsWord` — what no cut is made in.
* `Parts.StandFor` — the parts of a date and a time of day.
* `fixedParts?_of_isFixed`, `dashedParts?_of_isDashed`, `clockParts?_of_isClock` — what each way recovers.
* `Parts.StandFor.instant?_eq`, `instant?_of_isDate` — the instant of the parts, and of a date.
* `read_eq_some_iff` — what a date is read as.
-/

namespace HttpFields.HttpDate

/-! ## Words -/

/-- A word of a date: letters and digits. -/
def IsWord (w : Text) : Prop := w ≠ [] ∧ ∀ c ∈ w, c.isAlphanum = true

instance (w : Text) : Decidable (IsWord w) :=
  decidable_of_iff (w ≠ [] ∧ w.all Char.isAlphanum = true) (and_congr_right fun _ => List.all_eq_true)

theorem IsWord.not_mem {w : Text} (h : IsWord w) {c : Char} (hc : c.isAlphanum = false) : c ∉ w := by
  intro hmem
  rw [h.2 c hmem] at hc
  cases hc

theorem isWhiteSpace_eq_false_of_isAlphanum {c : Char} (h : c.isAlphanum = true) : Text.isWhiteSpace c = false := by
  rw [Char.isAlphanum, Bool.or_eq_true, ← CharClass.contains_alpha, ← CharClass.contains_digit, CharClass.alpha,
    CharClass.digit, CharClass.contains_append, Bool.or_eq_true, CharClass.contains_span, CharClass.contains_span,
    CharClass.contains_span] at h
  simp only [Char.le_def, UInt32.le_iff_toNat_le] at h
  -- none of the ranges of letters and digits holds a number of white space
  change ((65 ≤ c.toNat ∧ c.toNat ≤ 90) ∨ (97 ≤ c.toNat ∧ c.toNat ≤ 122)) ∨ (48 ≤ c.toNat ∧ c.toNat ≤ 57) at h
  simp only [Text.isWhiteSpace, Bool.or_eq_false_iff, Bool.and_eq_false_iff, decide_eq_false_iff_not]
  omega

theorem IsWord.isWhiteSpace_eq_false {w : Text} (h : IsWord w) : ∀ c ∈ w, Text.isWhiteSpace c = false :=
  fun c hc => isWhiteSpace_eq_false_of_isAlphanum (h.2 c hc)

theorem isWord_weekdayName : ∀ w, IsWord (weekdayName w) := by decide

theorem isWord_short_weekdayName : ∀ w, IsWord (short (weekdayName w)) := by decide

theorem isWord_short_monthName : ∀ month, IsWord (short (monthName month)) := by decide

theorem IsDigits.isNumeral {count : Nat} {s : Text} (h : IsDigits (count + 1) s) : Decimal.IsNumeral s :=
  ⟨List.ne_nil_of_length_eq_add_one h.1, h.2⟩

theorem IsDigits.isWord {count : Nat} {s : Text} (h : IsDigits (count + 1) s) : IsWord s := by
  refine ⟨h.isNumeral.1, fun c hc => ?_⟩
  rw [Char.isAlphanum, h.2 c hc, Bool.or_true]

theorem IsDigits.value_lt {count : Nat} {s : Text} (h : IsDigits count s) : Decimal.value s < 10 ^ count := by
  rw [← h.1]
  exact Decimal.value_lt h.2

/-- A time of day holds nothing between which a date is cut. -/
theorem IsTime.not_mem {time : Text} {t : TimeOfDay} (h : IsTime time t) {c : Char} (hc : c.isAlphanum = false)
    (hcolon : c ≠ ':') : c ∉ time := by
  obtain ⟨hour, minute, second, hhour, hminute, hsecond, rfl, -⟩ := h
  simp only [List.mem_append, List.mem_cons, not_or]
  exact ⟨hhour.isWord.not_mem hc, hcolon, hminute.isWord.not_mem hc, hcolon, hsecond.isWord.not_mem hc⟩

theorem IsTime.isWhiteSpace_eq_false {time : Text} {t : TimeOfDay} (h : IsTime time t) :
    ∀ c ∈ time, Text.isWhiteSpace c = false := by
  obtain ⟨hour, minute, second, hhour, hminute, hsecond, rfl, -⟩ := h
  simp only [List.forall_mem_append, List.forall_mem_cons]
  exact ⟨hhour.isWord.isWhiteSpace_eq_false, rfl, hminute.isWord.isWhiteSpace_eq_false, rfl,
    hsecond.isWord.isWhiteSpace_eq_false⟩

theorem IsTime.ne_nil {time : Text} {t : TimeOfDay} (h : IsTime time t) : time ≠ [] := by
  obtain ⟨hour, minute, second, -, -, -, rfl, -⟩ := h
  exact List.append_ne_nil_of_right_ne_nil hour (List.cons_ne_nil ':' _)

/-! ## The parts of a date -/

/-- The digits of a year: four of them, or two for one of the hundred years from 1950. -/
def IsYear : (twoDigitYear : Bool) → Text → Int → Prop
  | true, s, year =>
    IsDigits 2 s ∧ year = if Decimal.value s < 50 then 2000 + Decimal.value s else 1900 + Decimal.value s
  | false, s, year => IsDigits 4 s ∧ year = Decimal.value s

/-- The parts are those of a date and a time of day. -/
structure Parts.StandFor (parts : Parts) (twoDigitYear : Bool) (d : CalendarDate) (t : TimeOfDay) : Prop where
  isYear : IsYear twoDigitYear parts.year d.year
  month_eq : parts.month = short (monthName d.month)
  isDigits_day : IsDigits 2 parts.day ∨ IsDigits 1 parts.day
  value_day : d.day = Decimal.value parts.day
  isTime : IsTime parts.timeOfDay t

section Parts

variable {v : Text} {w : Fin 7} {d : CalendarDate} {t : TimeOfDay}

theorem fixedParts?_of_isFixed (h : IsFixed v w d t) :
    ∃ parts, fixedParts? v = some parts ∧ parts.StandFor false d t := by
  obtain ⟨year, hyear, ⟨word, time, hword, htime, rfl, hday⟩, hd⟩ := h
  have hname := isWord_short_weekdayName w
  have hmonth := isWord_short_monthName d.month
  refine ⟨⟨word, short (monthName d.month), year, time⟩, ?_, ⟨hyear, hd⟩, rfl, .inl hword, hday, htime⟩
  have hcut : ∀ date, Text.cutAround? [',', ' '] (short (weekdayName w) ++ ',' :: ' ' :: date) =
      some (short (weekdayName w), date) := fun _ => Text.cutAround?_append (hname.not_mem rfl)
  simp only [fixedParts?, hcut, Text.splitOn_append_cons (hword.isWord.not_mem (c := ' ') rfl),
    Text.splitOn_append_cons (hmonth.not_mem (c := ' ') rfl),
    Text.splitOn_append_cons (hyear.isWord.not_mem (c := ' ') rfl),
    Text.splitOn_append_cons (htime.not_mem (c := ' ') rfl (by decide)), Option.bind_eq_bind, Option.bind_some]

theorem dashedParts?_of_isDashed (h : IsDashed v w d t) :
    ∃ parts, dashedParts? v = some parts ∧ parts.StandFor true d t := by
  obtain ⟨year, hyear, ⟨word, time, hword, htime, rfl, hday⟩, hd⟩ := h
  have hname := isWord_weekdayName w
  have hmonth := isWord_short_monthName d.month
  refine ⟨⟨word, short (monthName d.month), year, time⟩, ?_, ⟨hyear, hd⟩, rfl, .inl hword, hday, htime⟩
  have hcut : ∀ rest, Text.cutAround? [',', ' '] (weekdayName w ++ ',' :: ' ' :: rest) = some (weekdayName w, rest) :=
    fun _ => Text.cutAround?_append (hname.not_mem rfl)
  -- the date is what stands in front of the first space, the dashes in it being none
  have hspace : ' ' ∉ word ++ '-' :: (short (monthName d.month) ++ '-' :: year) := by
    simp only [List.mem_append, List.mem_cons, not_or]
    exact ⟨hword.isWord.not_mem rfl, by decide, hmonth.not_mem rfl, by decide, hyear.isWord.not_mem rfl⟩
  have hdate : ∀ rest, Text.cutAt? ' ' (word ++ '-' :: (short (monthName d.month) ++ '-' :: (year ++ ' ' :: rest))) =
      some (word ++ '-' :: (short (monthName d.month) ++ '-' :: year), rest) := fun rest =>
    Text.cutAt?_eq_some_iff.mpr ⟨by simp only [List.append_assoc, List.cons_append], hspace⟩
  simp only [dashedParts?, hcut, hdate, Text.splitOn_append_cons (htime.not_mem (c := ' ') rfl (by decide)),
    Text.splitOn_append_cons (hword.isWord.not_mem (c := '-') rfl),
    Text.splitOn_append_cons (hmonth.not_mem (c := '-') rfl),
    List.splitOn_eq_singleton (hyear.isWord.not_mem (c := '-') rfl), List.head?_cons, Option.bind_eq_bind,
    Option.bind_some]

theorem clockParts?_of_isClock (h : IsClock v w d t) :
    ∃ parts, clockParts? v = some parts ∧ parts.StandFor false d t := by
  obtain ⟨blank, word, time, year, hword, htime, hyear, rfl, hday, hd⟩ := h
  have hname := isWord_short_weekdayName w
  have hmonth := isWord_short_monthName d.month
  -- the blank in front of a day with one digit is white space between two words, like any other
  have hblank : ∀ s, Text.words (blank ++ (word ++ ' ' :: s)) = word :: Text.words s := by
    intro s
    rcases hword with ⟨rfl, hword⟩ | ⟨rfl, hword⟩
    · exact Text.words_append_cons hword.isWord.1 hword.isWord.isWhiteSpace_eq_false rfl s
    · rw [List.cons_append, List.nil_append, Text.words_cons rfl]
      exact Text.words_append_cons hword.isWord.1 hword.isWord.isWhiteSpace_eq_false rfl s
  refine ⟨⟨word, short (monthName d.month), year, time⟩, ?_, ⟨hyear, hd⟩, rfl, hword.imp And.right And.right, hday,
    htime⟩
  rw [clockParts?, Text.words_append_cons hname.1 hname.isWhiteSpace_eq_false rfl,
    Text.words_append_cons hmonth.1 hmonth.isWhiteSpace_eq_false rfl, hblank,
    Text.words_append_cons htime.ne_nil htime.isWhiteSpace_eq_false rfl,
    Text.words_of_forall_mem hyear.isWord.1 hyear.isWord.isWhiteSpace_eq_false]
  rfl

end Parts

/-! ## The instant of the parts -/

theorem splitOn_of_isTime {time : Text} {t : TimeOfDay} (h : IsTime time t) :
    ∃ hour minute second, time.splitOn ':' = [hour, minute, second] ∧ IsDigits 2 hour ∧ IsDigits 2 minute ∧
      IsDigits 2 second ∧ t = ⟨Decimal.value hour, Decimal.value minute, Decimal.value second⟩ := by
  obtain ⟨hour, minute, second, hhour, hminute, hsecond, rfl, ht⟩ := h
  refine ⟨hour, minute, second, ?_, hhour, hminute, hsecond, ht⟩
  rw [Text.splitOn_append_cons (hhour.isWord.not_mem rfl), Text.splitOn_append_cons (hminute.isWord.not_mem rfl),
    List.splitOn_eq_singleton (hsecond.isWord.not_mem rfl)]

theorem idxOf?_monthName : ∀ month : Fin 12, monthNames.idxOf? (short (monthName month)) = some month.val := by decide

/-- Digits that are few enough are read as a word with their value. -/
theorem IsDigits.exists_toUInt32? {count : Nat} {s : Text} (h : IsDigits (count + 1) s) (hcount : count < 9) :
    ∃ n : UInt32, Decimal.toUInt32? s = some n ∧ n.toNat = Decimal.value s := by
  have hpow : 10 ^ (count + 1) ≤ 10 ^ 9 := Nat.pow_le_pow_right (by decide) hcount
  have hlt : Decimal.value s < UInt32.size := Nat.lt_of_lt_of_le h.value_lt (Nat.le_trans hpow (by decide))
  refine ⟨.ofNatLT _ hlt, h.isNumeral.toUInt32?_eq_some_iff.mpr ?_, UInt32.toNat_ofNatLT⟩
  rw [UInt32.toNat_ofNatLT]

theorem IsDigits.toInt32? {count : Nat} {s : Text} (h : IsDigits (count + 1) s) (hcount : count < 9) :
    Decimal.toInt32? s = some (.ofInt (Decimal.value s)) := by
  have hpow : 10 ^ (count + 1) ≤ 10 ^ 9 := Nat.pow_le_pow_right (by decide) hcount
  exact h.isNumeral.toInt32? (Nat.lt_of_lt_of_le h.value_lt (Nat.le_trans hpow (by decide)))

theorem toInt_fullYear {n : Nat} (h : n < 100) :
    (fullYear (.ofInt n)).toInt = (if n < 50 then 2000 + n else 1900 + n : Nat) := by
  have hall : ∀ n : Fin 100,
      (fullYear (.ofInt n.val)).toInt = (if n.val < 50 then 2000 + n.val else 1900 + n.val : Nat) := by
    decide +kernel
  exact hall ⟨n, h⟩

/-- A year of four digits is read as its value. -/
theorem IsDigits.toInt_ofInt_value {s : Text} (h : IsDigits 4 s) :
    (Int32.ofInt (Decimal.value s)).toInt = Decimal.value s := by
  have hlt := h.value_lt
  exact Int32.toInt_ofInt_of_le (by omega) (by omega)

/-- The digits of a year are read as this year. -/
theorem IsYear.exists_toInt32? {twoDigitYear : Bool} {s : Text} {year : Int} (h : IsYear twoDigitYear s year) :
    ∃ number, Decimal.toInt32? s = some number ∧
      (if twoDigitYear then fullYear number else number).toInt = year := by
  cases twoDigitYear with
  | true =>
    obtain ⟨hdigits, rfl⟩ := h
    exact ⟨_, hdigits.toInt32? (by decide), toInt_fullYear hdigits.value_lt⟩
  | false =>
    obtain ⟨hdigits, rfl⟩ := h
    exact ⟨_, hdigits.toInt32? (by decide), hdigits.toInt_ofInt_value⟩

/-- **The instant of the parts.** The parts of a date stand for the instant that the calendar has of it. The name of the
    day of the week is none of them. -/
theorem Parts.StandFor.instant?_eq {parts : Parts} {twoDigitYear : Bool} {d : CalendarDate} {t : TimeOfDay}
    (h : parts.StandFor twoDigitYear d t) (calendar : Calendar) :
    parts.instant? twoDigitYear calendar = calendar.at? d t := by
  obtain ⟨hour, minute, second, hsplit, hhour, hminute, hsecond, rfl⟩ := splitOn_of_isTime h.isTime
  have hday : ∃ n : UInt32, Decimal.toUInt32? parts.day = some n ∧ n.toNat = Decimal.value parts.day :=
    h.isDigits_day.elim (·.exists_toUInt32? (by decide)) (·.exists_toUInt32? (by decide))
  obtain ⟨number, hnumber, hyear⟩ := h.isYear.exists_toInt32?
  obtain ⟨day, hday, hday_value⟩ := hday
  obtain ⟨hours, hhours, hhours_value⟩ := hhour.exists_toUInt32? (by decide)
  obtain ⟨minutes, hminutes, hminutes_value⟩ := hminute.exists_toUInt32? (by decide)
  obtain ⟨seconds, hseconds, hseconds_value⟩ := hsecond.exists_toUInt32? (by decide)
  rw [Parts.instant?, Calendar.at?, h.month_eq, h.value_day, ← hyear, ← hday_value, ← hhours_value, ← hminutes_value,
    ← hseconds_value]
  simp only [hnumber, idxOf?_monthName, hday, hsplit, hhours, hminutes, hseconds, Option.bind_eq_bind, Option.bind_some]

/-! ## The instant of a date -/

section Instant

variable {v : Text} {w : Fin 7} {d : CalendarDate} {t : TimeOfDay}

theorem instant?_of_isFixed (h : IsFixed v w d t) (calendar : Calendar) : instant? v calendar = calendar.at? d t := by
  have hdashed : ¬ dashed.accepts v = true := by
    intro hdashed
    obtain ⟨w', d', t', h'⟩ := accepts_dashed_iff.mp hdashed
    exact h.not_isDashed h'
  have hclock : ¬ clock.accepts v = true := by
    intro hclock
    obtain ⟨w', d', t', h'⟩ := accepts_clock_iff.mp hclock
    exact h.not_isClock h'
  obtain ⟨parts, hparts, hstand⟩ := fixedParts?_of_isFixed h
  rw [instant?, if_neg hdashed, if_neg hclock, hparts, Option.bind_some, hstand.instant?_eq]

theorem instant?_of_isDashed (h : IsDashed v w d t) (calendar : Calendar) :
    instant? v calendar = calendar.at? d t := by
  have hdashed : dashed.accepts v = true := accepts_dashed_iff.mpr ⟨w, d, t, h⟩
  obtain ⟨parts, hparts, hstand⟩ := dashedParts?_of_isDashed h
  rw [instant?, if_pos hdashed, hparts, Option.bind_some, hstand.instant?_eq]

theorem instant?_of_isClock (h : IsClock v w d t) (calendar : Calendar) : instant? v calendar = calendar.at? d t := by
  have hdashed : ¬ dashed.accepts v = true := by
    intro hdashed
    obtain ⟨w', d', t', h'⟩ := accepts_dashed_iff.mp hdashed
    exact h'.not_isClock h
  have hclock : clock.accepts v = true := accepts_clock_iff.mpr ⟨w, d, t, h⟩
  obtain ⟨parts, hparts, hstand⟩ := clockParts?_of_isClock h
  rw [instant?, if_neg hdashed, if_pos hclock, hparts, Option.bind_some, hstand.instant?_eq]

/-- **The instant of a date.** A text that is a date has the instant that the calendar has of the date. -/
theorem instant?_of_isDate (h : IsDate v w d t) (calendar : Calendar) : instant? v calendar = calendar.at? d t := by
  rcases h with h | h | h
  · exact instant?_of_isFixed h calendar
  · exact instant?_of_isDashed h calendar
  · exact instant?_of_isClock h calendar

end Instant

/-! ## Reading -/

/-- What a text that is the date and the time of day is read as: their instant, or the text itself if there is none. -/
def meaning (calendar : Calendar) (v : Text) (d : CalendarDate) (t : TimeOfDay) : HttpDate :=
  match calendar.at? d t with
  | some instant => valid instant
  | none => invalid v

theorem read_of_isDate {v : Text} {w : Fin 7} {d : CalendarDate} {t : TimeOfDay} (h : IsDate v w d t)
    (calendar : Calendar) : (read v calendar).value = some (meaning calendar v d t) := by
  rw [read, Reading.value_require_bind_eq_some_iff]
  refine ⟨accepts_grammar_iff.mpr ⟨w, d, t, h⟩, ?_⟩
  rw [instant?_of_isDate h, meaning]
  cases calendar.at? d t <;> rfl

/-- **How a date is read.** A text is read exactly if it is a date, and then as what this date means. -/
theorem read_eq_some_iff {v : Text} {calendar : Calendar} {h : HttpDate} :
    (read v calendar).value = some h ↔ ∃ w d t, IsDate v w d t ∧ h = meaning calendar v d t := by
  constructor
  · intro hread
    obtain ⟨w, d, t, hdate⟩ := accepts_grammar_iff.mp (Reading.value_require_bind_eq_some_iff.mp hread).1
    exact ⟨w, d, t, hdate, Option.some.inj (hread.symm.trans (read_of_isDate hdate calendar))⟩
  · rintro ⟨w, d, t, hdate, rfl⟩
    exact read_of_isDate hdate calendar

end HttpFields.HttpDate
