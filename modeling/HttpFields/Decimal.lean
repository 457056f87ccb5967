import HttpFields.Text

/-!
# `HttpFields.Decimal` — decimal numerals

Numbers in field values are unsigned decimal numerals. They are written with the fewest digits, or padded with
zeros to a width, and read with any number of leading zeros. A text is read as a machine word if it is a numeral, with
at most a sign in front of it that the word can have, and the word can hold its number; else it is refused.

* `value_digits`, `value_padded` — reading back what was written.
* `IsNumeral`, `number?_eq_some_iff` — texts that stand for a number without a sign.
* `IsNumeral.toUInt16?_eq_some_iff`, `IsNumeral.toUInt32?_eq_some_iff`, `IsNumeral.toUInt64?_eq_some_iff` — a numeral
  gives a word exactly when the word has its value.
-/

namespace HttpFields.Decimal

/-! ## Numerals and their values -/

/-- The value of a text of digits. The empty text has the value zero. -/
def value (digits : Text) : Nat := Nat.ofDigitChars 10 digits 0

/-- The decimal numeral of a number, with no leading zero except for zero itself. -/
def digits (n : Nat) : Text := Nat.toDigits 10 n

/-- The decimal numeral of a number, with zeros in front of it up to the given width. -/
def padded (width n : Nat) : Text := (digits n).leftpad width '0'

@[simp] theorem value_digits (n : Nat) : value (digits n) = n :=
  Nat.ofDigitChars_toDigits (by decide) (by decide)

/-- Zeros in front of a numeral do not change its value. -/
theorem value_replicate_zero_append (k : Nat) (s : Text) : value (List.replicate k '0' ++ s) = value s := by
  induction k with
  | zero => rfl
  | succ k ih =>
    rw [List.replicate_succ, List.cons_append, value, Nat.ofDigitChars_cons]
    exact ih

@[simp] theorem value_padded (width n : Nat) : value (padded width n) = n := by
  simp [padded, List.leftpad, value_replicate_zero_append]

theorem digits_ne_nil (n : Nat) : digits n ≠ [] := Nat.toDigits_ne_nil

theorem isDigit_of_mem_digits {n : Nat} {c : Char} (h : c ∈ digits n) : c.isDigit = true :=
  Nat.isDigit_of_mem_toDigits (by decide) (by decide) h

theorem isDigit_of_mem_leadingZeros {zeros n : Nat} {c : Char} (h : c ∈ List.replicate zeros '0' ++ digits n) :
    c.isDigit = true := by
  rcases List.mem_append.1 h with h | h
  · rw [List.eq_of_mem_replicate h]; decide
  · exact isDigit_of_mem_digits h

theorem isDigit_of_mem_padded {width n : Nat} {c : Char} (h : c ∈ padded width n) : c.isDigit = true :=
  isDigit_of_mem_leadingZeros h

/-! ## Texts as numbers -/

/-- The text stands for a number: it is not empty, and all of it are digits. -/
def IsNumeral (s : Text) : Prop := s ≠ [] ∧ ∀ c ∈ s, c.isDigit = true

/-- The number that a text of digits stands for, or nothing if it is empty or holds anything else. -/
def number? (s : Text) : Option Nat := if s ≠ [] ∧ s.all Char.isDigit = true then some (value s) else none

/-- The text behind a plus sign, and all of it if it does not start with one. -/
def dropPlus : Text → Text
  | '+' :: s => s
  | s => s

/-- The number with any sign in front of it. -/
def integer? : Text → Option Int
  | '-' :: s => (number? s).map fun n => -n
  | s => (number? (dropPlus s)).map fun n => n

/-- Numerals stand for their value, and no other text for a number. -/
theorem number?_eq_some_iff {s : Text} {n : Nat} : number? s = some n ↔ IsNumeral s ∧ value s = n := by
  rw [number?, Option.ite_none_right_eq_some, List.all_eq_true, Option.some.injEq, IsNumeral]

theorem IsNumeral.number? {s : Text} (h : IsNumeral s) : number? s = some (value s) :=
  number?_eq_some_iff.mpr ⟨h, rfl⟩

/-- A numeral starts with no sign. -/
theorem IsNumeral.ne_sign {s : Text} {sign : Char} (hsign : sign.isDigit = false) (h : IsNumeral (sign :: s)) :
    False := by
  have hdigit := h.2 sign List.mem_cons_self
  rw [hsign] at hdigit
  cases hdigit

theorem IsNumeral.dropPlus {s : Text} (h : IsNumeral s) : dropPlus s = s := by
  unfold Decimal.dropPlus
  split
  · exact (h.ne_sign rfl).elim
  · rfl

theorem IsNumeral.integer? {s : Text} (h : IsNumeral s) : integer? s = some (value s : Int) := by
  unfold Decimal.integer?
  split
  · exact (h.ne_sign rfl).elim
  · rw [h.dropPlus, h.number?]
    rfl

theorem isNumeral_leadingZeros (zeros n : Nat) : IsNumeral (List.replicate zeros '0' ++ digits n) :=
  ⟨List.append_ne_nil_of_right_ne_nil _ (digits_ne_nil n), fun _ => isDigit_of_mem_leadingZeros⟩

/-! ## Machine words -/

/-- The number below `size` that a text stands for. It may have a plus sign in front of it. -/
def below? (size : Nat) (s : Text) : Option (Fin size) :=
  (number? (dropPlus s)).bind fun n => if h : n < size then some ⟨n, h⟩ else none

/-- The 16-bit word that a text stands for. -/
def toUInt16? (s : Text) : Option UInt16 := (below? UInt16.size s).map UInt16.ofFin

/-- The 32-bit word that a text stands for. -/
def toUInt32? (s : Text) : Option UInt32 := (below? UInt32.size s).map UInt32.ofFin

/-- The 64-bit word that a text stands for. -/
def toUInt64? (s : Text) : Option UInt64 := (below? UInt64.size s).map UInt64.ofFin

/-- The 32-bit word with a sign that a text stands for. -/
def toInt32? (s : Text) : Option Int32 :=
  (integer? s).bind fun n =>
    if Int32.minValue.toInt ≤ n ∧ n ≤ Int32.maxValue.toInt then some (.ofInt n) else none

theorem IsNumeral.below?_eq_some_iff {size : Nat} {s : Text} (h : IsNumeral s) {n : Fin size} :
    below? size s = some n ↔ value s = n := by
  rw [below?, h.dropPlus, h.number?, Option.bind_some]
  split
  · rw [Option.some.injEq, Fin.ext_iff]
  · rename_i hge
    refine iff_of_false nofun fun hvalue => hge ?_
    rw [hvalue]
    exact n.isLt

/-- Words that are the numbers below `size` under another name are read like these. -/
theorem IsNumeral.map_below?_eq_some_iff {s : Text} (h : IsNumeral s) {size : Nat} {Word : Type}
    {ofFin : Fin size → Word} (toFin : Word → Fin size) (hofFin : ∀ w, ofFin (toFin w) = w)
    (htoFin : ∀ k, toFin (ofFin k) = k) {w : Word} : (below? size s).map ofFin = some w ↔ value s = toFin w := by
  rw [Option.map_eq_some_iff]
  constructor
  · rintro ⟨k, hk, rfl⟩
    rw [htoFin]
    exact h.below?_eq_some_iff.mp hk
  · intro hvalue
    exact ⟨toFin w, h.below?_eq_some_iff.mpr hvalue, hofFin w⟩

theorem IsNumeral.toUInt16?_eq_some_iff {s : Text} (h : IsNumeral s) {n : UInt16} :
    toUInt16? s = some n ↔ value s = n.toNat :=
  h.map_below?_eq_some_iff UInt16.toFin (fun _ => rfl) fun _ => rfl

theorem IsNumeral.toUInt32?_eq_some_iff {s : Text} (h : IsNumeral s) {n : UInt32} :
    toUInt32? s = some n ↔ value s = n.toNat :=
  h.map_below?_eq_some_iff UInt32.toFin (fun _ => rfl) fun _ => rfl

theorem IsNumeral.toUInt64?_eq_some_iff {s : Text} (h : IsNumeral s) {n : UInt64} :
    toUInt64? s = some n ↔ value s = n.toNat :=
  h.map_below?_eq_some_iff UInt64.toFin (fun _ => rfl) fun _ => rfl

/-- A numeral that needs no more bits stands for a word with its value. -/
theorem IsNumeral.toInt32? {s : Text} (h : IsNumeral s) (hvalue : value s < 2147483648) :
    toInt32? s = some (.ofInt (value s)) := by
  have hmin : Int32.minValue.toInt = -2147483648 := rfl
  have hmax : Int32.maxValue.toInt = 2147483647 := rfl
  rw [Decimal.toInt32?, h.integer?, Option.bind_some, if_pos]
  omega

end HttpFields.Decimal
