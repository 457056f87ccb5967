import HttpFields.Reader
import HttpFields.Proofs.Decimal

/-!
# `HttpFields.Proofs.Length` — how a length is read

The grammar takes any text of digits, however long, and leaves it to the number to fit. How many digits there are says
nothing about that, since zeros may stand in front: a text longer than any number of 64 bits may be read, and one of
twenty digits refused.

* `read_eq_some_iff`, `read_eq_none_iff` — what is read and what is refused.
* `parse?_contentLength_iff` — when a text is read, and as which length.
-/

namespace HttpFields

namespace Length

open Decimal (IsNumeral)

theorem accepts_grammar_iff {v : Text} : grammar.accepts v = true ↔ IsNumeral v := by
  simp only [grammar, IsNumeral, CharClass.accepts_many1_rule_iff, CharClass.contains_digit]

/-! ## Reading -/

/-- A text that stands for a number is read as the word of its value, if there is one. -/
theorem value_read {v : Text} (h : IsNumeral v) : (read v).value = Decimal.toUInt64? v := by
  rw [read, accepts_grammar_iff.mpr h, Reading.require_true, Reading.accept_bind, Reading.value_expect]

theorem value_read_eq_none {v : Text} (h : ¬ IsNumeral v) : (read v).value = none := by
  have haccepts : grammar.accepts v = false := Bool.eq_false_iff.mpr (mt accepts_grammar_iff.mp h)
  rw [read, Reading.require_bind_of_eq_false haccepts]
  rfl

/-- **What is read.** A text is read as the length that it stands for. -/
theorem read_eq_some_iff {v : Text} {n : UInt64} :
    (read v).value = some n ↔ IsNumeral v ∧ Decimal.value v = n.toNat := by
  by_cases h : IsNumeral v
  · rw [value_read h, h.toUInt64?_eq_some_iff, and_iff_right h]
  · rw [value_read_eq_none h]
    exact iff_of_false nofun fun hv => h hv.1

/-- **What is refused.** A text is refused if it stands for no number, or for one that needs more than 64 bits. -/
theorem read_eq_none_iff {v : Text} : (read v).value = none ↔ ¬ IsNumeral v ∨ 2 ^ 64 ≤ Decimal.value v := by
  by_cases h : IsNumeral v
  · rw [value_read h, h.toUInt64?_eq_none_iff, or_iff_right (not_not_intro h)]
  · exact iff_of_true (value_read_eq_none h) (Or.inl h)

/-- The text of a word, with any number of zeros in front, is read as the word. -/
theorem read_leadingZeros (zeros : Nat) (n : UInt64) :
    (read (List.replicate zeros '0' ++ Decimal.digits n.toNat)).value = some n := by
  rw [read_eq_some_iff, Decimal.value_replicate_zero_append, Decimal.value_digits]
  exact ⟨Decimal.isNumeral_leadingZeros zeros n.toNat, rfl⟩

end Length

/-- **Lengths.** A text is read as a length exactly if it is a text of digits, not empty, whose value is the length, and
    the value fits 64 bits; it is refused if it is empty, if any of its characters is no digit, or for a larger value.
    Reading the digits one by one, up to the first number that does not fit, comes to the same. The text of a length is
    read as that length, with any number of zeros in front. -/
theorem parse?_contentLength_iff :
    (∀ (v : Text) (n : Nat), (Field.contentLength.parse? v).map UInt64.toNat = some n ↔
        v ≠ [] ∧ (∀ c ∈ v, c.isDigit = true) ∧ Decimal.value v = n ∧ n ≤ 2 ^ 64 - 1) ∧
      (∀ v : Text, Field.contentLength.parse? v = none ↔
        v = [] ∨ (∃ c ∈ v, c.isDigit = false) ∨ 2 ^ 64 - 1 < Decimal.value v) ∧
      (∀ v : Text, v ≠ [] → (∀ c ∈ v, c.isDigit = true) →
        Field.contentLength.parse? v = v.foldlM Decimal.push? 0) ∧
      ∀ (zeros : Nat) (n : UInt64),
        Field.contentLength.parse? (List.replicate zeros '0' ++ Decimal.digits n.toNat) = some n := by
  refine ⟨?_, ?_, ?_, Length.read_leadingZeros⟩
  · intro v n
    rw [Option.map_eq_some_iff]
    constructor
    · rintro ⟨word, hword, rfl⟩
      obtain ⟨⟨hne, hdigits⟩, hvalue⟩ := Length.read_eq_some_iff.mp hword
      exact ⟨hne, hdigits, hvalue, Nat.le_sub_one_of_lt word.toNat_lt⟩
    · rintro ⟨hne, hdigits, rfl, hle⟩
      have hnumeral : Decimal.IsNumeral v := ⟨hne, hdigits⟩
      obtain ⟨word, hword⟩ := hnumeral.exists_toUInt64?_iff.mpr (Nat.lt_of_le_sub_one (by decide) hle)
      have hvalue := hnumeral.toUInt64?_eq_some_iff.mp hword
      exact ⟨word, Length.read_eq_some_iff.mpr ⟨⟨hne, hdigits⟩, hvalue⟩, hvalue.symm⟩
  · intro v
    have hnumeral : ¬ Decimal.IsNumeral v ↔ v = [] ∨ ∃ c ∈ v, c.isDigit = false := by
      simp [Decimal.IsNumeral, imp_iff_not_or]
    show (Length.read v).value = none ↔ _
    rw [Length.read_eq_none_iff, hnumeral, or_assoc]
    rfl
  · intro v hne hdigits
    have hnumeral : Decimal.IsNumeral v := ⟨hne, hdigits⟩
    show (Length.read v).value = _
    rw [Length.value_read hnumeral, hnumeral.foldlM_push?_eq_toUInt64?]

/-- More digits than any word has, and the same value; one more than the largest word; a sign, and a digit of another
    script. -/
theorem parse?_contentLength_largest :
    let largest : Text := "18446744073709551615".toList
    let padded : Text := List.replicate 30 '0' ++ largest
    (padded ≠ [] ∧ ∀ c ∈ padded, c.isDigit = true) ∧
      Field.contentLength.parse? padded = padded.foldlM Decimal.push? 0 ∧
      Field.contentLength.parse? padded = some 18446744073709551615 ∧
      Field.contentLength.parse? "18446744073709551616".toList = none ∧
      Field.contentLength.parse? "+1".toList = none ∧ Field.contentLength.parse? ['1', '\u0663'] = none := by
  intro largest padded
  have hdigits : Decimal.IsNumeral padded := Decimal.isNumeral_leadingZeros 30 18446744073709551615
  obtain ⟨-, hrefused, hread, hzeros⟩ := parse?_contentLength_iff
  refine ⟨hdigits, hread padded hdigits.1 hdigits.2, ?_, ?_, ?_, ?_⟩
  · exact hzeros 30 18446744073709551615
  · exact (hrefused _).mpr (Or.inr (Or.inr (by decide)))
  · exact (hrefused _).mpr (Or.inr (Or.inl ⟨'+', by decide, by decide⟩))
  · exact (hrefused _).mpr (Or.inr (Or.inl ⟨'\u0663', by decide, by decide⟩))

end HttpFields
