import Mathlib.Algebra.GroupWithZero.Nat
import HttpFields.Decimal

/-!
# `HttpFields.Proofs.Decimal` — how large a numeral is

The number of digits bounds the value of a numeral, and the value of a number the digits that it takes. Where the value
is too large for a machine word there is no word.

A machine has no value to compare, for it reads digit by digit and never holds a number that does not fit. That comes to
the same: a numeral does not become smaller with more digits behind it, so a number that has left the range of a word
never comes back to it.

* `value_lt`, `length_padded` — digits and values.
* `IsNumeral.toUInt16?_eq_none_iff`, `IsNumeral.toUInt64?_eq_none_iff`, `IsNumeral.exists_toUInt64?_iff` — numerals
  without a word and with one.
* `push?`, `IsNumeral.foldlM_push?_eq_toUInt64?` — a word digit by digit.
-/

namespace HttpFields.Decimal

/-- A numeral is less than the power of ten that has one digit more. -/
theorem value_lt {s : Text} (h : ∀ c ∈ s, c.isDigit = true) : value s < 10 ^ s.length := by
  induction s with
  | nil => exact Nat.one_pos
  | cons c s ih =>
    have hs : value s < 10 ^ s.length := ih fun d hd => h d (List.mem_cons_of_mem _ hd)
    have hc : c.toNat - '0'.toNat ≤ 9 := by
      have hdigit := h c List.mem_cons_self
      simp only [Char.isDigit, Bool.and_eq_true, decide_eq_true_eq, UInt32.le_iff_toNat_le] at hdigit
      exact Nat.sub_le_sub_right hdigit.2 48
    have hvalue : value (c :: s) = 10 ^ s.length * (c.toNat - '0'.toNat) + value s := by
      rw [value, Nat.ofDigitChars_cons, Nat.ofDigitChars_eq_ofDigitChars_zero, Nat.mul_zero, Nat.zero_add, value]
    have hle : 10 ^ s.length * (c.toNat - '0'.toNat) ≤ 10 ^ s.length * 9 := Nat.mul_le_mul_left _ hc
    rw [hvalue, List.length_cons, Nat.pow_succ]
    omega

/-- A padded numeral is as wide as asked for when the number is that small. -/
theorem length_padded {width n : Nat} (hw : 0 < width) (h : n < 10 ^ width) : (padded width n).length = width := by
  have hle : (digits n).length ≤ width := (Nat.length_toDigits_le_iff (by decide) hw).2 h
  rw [padded, List.length_leftpad]
  omega

/-- A numeral is not below a bound exactly when its value is not. -/
theorem IsNumeral.below?_eq_none_iff {size : Nat} {s : Text} (h : IsNumeral s) :
    below? size s = none ↔ size ≤ value s := by
  rw [below?, h.dropPlus, h.number?, Option.bind_some, ← Nat.not_lt]
  split
  · rename_i hlt
    exact iff_of_false (Option.some_ne_none _) (not_not_intro hlt)
  · rename_i hge
    exact iff_of_true rfl hge

theorem IsNumeral.toUInt16?_eq_none_iff {s : Text} (h : IsNumeral s) : toUInt16? s = none ↔ 2 ^ 16 ≤ value s := by
  rw [toUInt16?, Option.map_eq_none_iff, h.below?_eq_none_iff]
  rfl

/-- A numeral gives no word exactly when its value needs more than 64 bits. -/
theorem IsNumeral.toUInt64?_eq_none_iff {s : Text} (h : IsNumeral s) : toUInt64? s = none ↔ 2 ^ 64 ≤ value s := by
  rw [toUInt64?, Option.map_eq_none_iff, h.below?_eq_none_iff]
  rfl

/-- A numeral has a 64-bit word exactly when its value needs no more bits. -/
theorem IsNumeral.exists_toUInt64?_iff {s : Text} (h : IsNumeral s) :
    (∃ n, toUInt64? s = some n) ↔ value s < 2 ^ 64 := by
  rw [← Nat.not_le, ← h.toUInt64?_eq_none_iff, ← ne_eq, Option.ne_none_iff_exists']

/-! ## Digit by digit -/

/-- The number with one more digit behind it, or nothing if that needs more than 64 bits. -/
def push? (n : UInt64) (digit : Char) : Option UInt64 :=
  if 10 * n.toNat + (digit.toNat - '0'.toNat) < UInt64.size then
    some (.ofNat (10 * n.toNat + (digit.toNat - '0'.toNat)))
  else none

theorem push?_eq_some_iff {n n' : UInt64} {c : Char} :
    push? n c = some n' ↔ 10 * n.toNat + (c.toNat - '0'.toNat) = n'.toNat := by
  unfold push?
  split
  · rename_i hlt
    rw [Option.some.injEq, ← UInt64.toNat_inj, UInt64.toNat_ofNat_of_lt' hlt]
  · rename_i hge
    refine iff_of_false nofun ?_
    intro h
    exact hge (h ▸ n'.toNat_lt)

/-- A numeral does not become smaller with more digits behind it. -/
theorem le_ofDigitChars (s : Text) (n : Nat) : n ≤ Nat.ofDigitChars 10 s n := by
  induction s generalizing n with
  | nil => exact Nat.le_refl n
  | cons c s ih =>
    have hs := ih (10 * n + (c.toNat - '0'.toNat))
    rw [Nat.ofDigitChars_cons]
    omega

/-- Digits pushed onto a word, one after the other, give the word that has the value of all of them. -/
theorem foldlM_push?_eq_some_iff {s : Text} {n n' : UInt64} :
    s.foldlM push? n = some n' ↔ Nat.ofDigitChars 10 s n.toNat = n'.toNat := by
  induction s generalizing n with
  | nil =>
    rw [List.foldlM_nil, Nat.ofDigitChars_nil, UInt64.toNat_inj]
    exact Option.some_inj
  | cons c s ih =>
    rw [List.foldlM_cons, Nat.ofDigitChars_cons]
    constructor
    · intro h
      obtain ⟨k, hk, hs⟩ := Option.bind_eq_some_iff.mp h
      rw [push?_eq_some_iff.mp hk]
      exact ih.mp hs
    · intro h
      -- the number up to this digit is not larger than the one at the end, which fits
      have hle : 10 * n.toNat + (c.toNat - '0'.toNat) ≤ n'.toNat := h ▸ le_ofDigitChars s _
      have hlt : 10 * n.toNat + (c.toNat - '0'.toNat) < UInt64.size := Nat.lt_of_le_of_lt hle n'.toNat_lt
      obtain ⟨k, hk⟩ : ∃ k : UInt64, 10 * n.toNat + (c.toNat - '0'.toNat) = k.toNat :=
        ⟨.ofNatLT _ hlt, UInt64.toNat_ofNatLT.symm⟩
      rw [hk] at h
      exact Option.bind_eq_some_iff.mpr ⟨k, push?_eq_some_iff.mpr hk, ih.mpr h⟩

/-- **Too large once is too large at the end.** Reading digit by digit gives the word of a numeral, and gives none
    exactly if the numeral has none, wherever on the way that shows. -/
theorem IsNumeral.foldlM_push?_eq_toUInt64? {s : Text} (h : IsNumeral s) : s.foldlM push? 0 = toUInt64? s := by
  apply Option.ext
  intro n
  rw [foldlM_push?_eq_some_iff, h.toUInt64?_eq_some_iff]
  rfl

end HttpFields.Decimal
