import HttpFields.Abnf.Rule

/-!
# `HttpFields.Abnf.CharClass` — sets of characters as rules and as tests

A grammar speaks of a set of characters in two ways: as a rule that matches any one of them, and as a test on a
character. `CharClass` is the set, a list of inclusive spans; `rule` and `contains` are the two readings.

* `parse?_rule` — the rule takes one character, provided that the class contains it.
* `parse?_many_rule` — any number of them is the longest prefix of characters of the class.
* `accepts_many1_rule_iff` — at least one: a non-empty text of such characters.
-/

namespace HttpFields

/-- A set of characters, given as inclusive spans. -/
structure CharClass where
  spans : List (Char × Char)

namespace CharClass

/-! ## Building classes -/

/-- The characters from `low` to `high`, both included. -/
def span (low high : Char) : CharClass := ⟨[(low, high)]⟩

/-- The characters of a text. -/
def ofText (text : Text) : CharClass := ⟨text.map fun c => (c, c)⟩

/-- The characters of either class. -/
def union (a b : CharClass) : CharClass := ⟨a.spans ++ b.spans⟩

instance : Append CharClass := ⟨union⟩

/-! ## The two readings -/

/-- Whether a character belongs to the class. -/
def contains (cls : CharClass) (c : Char) : Bool :=
  cls.spans.any fun (low, high) => decide (low ≤ c) && decide (c ≤ high)

/-- The rule that matches any one character of the class. -/
def rule (cls : CharClass) : Rule := .choice (cls.spans.map fun (low, high) => .between low high)

instance : Coe CharClass Rule := ⟨rule⟩

@[simp] theorem contains_append (a b : CharClass) (c : Char) :
    (a ++ b).contains c = (a.contains c || b.contains c) :=
  List.any_append

/-- A span contains the characters between its ends. -/
theorem contains_span {low high c : Char} : (span low high).contains c = true ↔ low ≤ c ∧ c ≤ high := by
  simp [contains, span]

/-- The class of a text contains the characters of the text. -/
theorem contains_ofText {text : Text} {c : Char} : (ofText text).contains c = true ↔ c ∈ text := by
  simp only [contains, ofText, List.any_map, List.any_eq_true, Function.comp_apply, Bool.and_eq_true,
    decide_eq_true_eq]
  constructor
  · rintro ⟨x, hx, h₁, h₂⟩
    exact Char.le_antisymm h₁ h₂ ▸ hx
  · exact fun h => ⟨c, h, Char.le_refl c, Char.le_refl c⟩

/-! ## Matching a class -/

/-- A choice of terminals takes one character, provided that it is one of them. -/
theorem parse?_choice_terminals (cs : List Char) (s : Text) :
    (Rule.choice (cs.map .terminal)).parse? s =
      match s with
      | [] => none
      | c :: s => if c ∈ cs then some ⟨[c], s⟩ else none := by
  induction cs with
  | nil => cases s <;> simp
  | cons v cs ih =>
    rw [List.map_cons, Rule.parse?_choice_cons, ih]
    cases s with
    | nil => simp
    | cons c s =>
      by_cases hv : c = v <;> simp [hv]

theorem parse?_between (low high : Char) (s : Text) :
    (Rule.between low high).parse? s =
      match s with
      | [] => none
      | c :: s => if low ≤ c ∧ c ≤ high then some ⟨[c], s⟩ else none := by
  rw [Rule.between, parse?_choice_terminals]
  cases s <;> simp [Rule.mem_charactersBetween]

/-- **One character of the class.** The rule of a class takes the first character of a text, provided that the class
    contains it. -/
theorem parse?_rule (cls : CharClass) (s : Text) :
    cls.rule.parse? s =
      match s with
      | [] => none
      | c :: s => if cls.contains c then some ⟨[c], s⟩ else none := by
  obtain ⟨spans⟩ := cls
  unfold rule contains
  induction spans with
  | nil => cases s <;> simp
  | cons p spans ih =>
    rw [List.map_cons, Rule.parse?_choice_cons, ih, parse?_between]
    cases s with
    | nil => rfl
    | cons c s =>
      simp only [List.any_cons, Bool.or_eq_true, Bool.and_eq_true, decide_eq_true_eq]
      by_cases hp : p.1 ≤ c ∧ c ≤ p.2 <;> simp only [hp, false_or, if_false] <;> rfl

@[simp] theorem parse?_rule_nil (cls : CharClass) : cls.rule.parse? [] = none := parse?_rule cls []

theorem parse?_rule_cons (cls : CharClass) (c : Char) (s : Text) :
    cls.rule.parse? (c :: s) = if cls.contains c then some ⟨[c], s⟩ else none := parse?_rule cls (c :: s)

/-- **The longest prefix.** Any number of characters of a class is the longest prefix made of them. -/
theorem parse?_many_rule (cls : CharClass) (s : Text) :
    (Rule.many cls.rule).parse? s = some ⟨s.takeWhile cls.contains, s.dropWhile cls.contains⟩ := by
  unfold Rule.many
  induction s with
  | nil => simp [Rule.parse?_repetition, Match.empty]
  | cons c s ih =>
    rw [Rule.parse?_repetition, parse?_rule_cons]
    by_cases hc : cls.contains c
    · simp [hc, ih, Match.prepend]
    · simp [hc, Match.empty]

/-- At least one character of a class is the longest prefix made of them, unless that is empty. -/
theorem parse?_many1_rule (cls : CharClass) (s : Text) :
    (Rule.many1 cls.rule).parse? s =
      if s.takeWhile cls.contains = [] then none
      else some ⟨s.takeWhile cls.contains, s.dropWhile cls.contains⟩ := by
  unfold Rule.many1
  rw [Rule.parse?_repetition]
  cases s with
  | nil => simp
  | cons c s =>
    rw [parse?_rule_cons]
    by_cases hc : cls.contains c
    · have := parse?_many_rule cls s
      unfold Rule.many at this
      simp [hc, this, Match.prepend]
    · simp [hc]

/-- A text is made of characters of the class exactly when any number of them matches all of it. -/
theorem accepts_many_rule_iff {cls : CharClass} {s : Text} :
    (Rule.many cls.rule).accepts s = true ↔ ∀ c ∈ s, cls.contains c = true := by
  rw [Rule.accepts_iff, parse?_many_rule, Option.some.injEq, Match.mk.injEq]
  constructor
  · rintro ⟨h, -⟩
    exact List.all_eq_true.1 (h ▸ List.all_takeWhile)
  · intro h
    have ht : (s ++ []).takeWhile cls.contains = _ := List.takeWhile_append_of_pos h
    have hd : (s ++ []).dropWhile cls.contains = _ := List.dropWhile_append_of_pos h
    exact ⟨by simpa using ht, by simpa using hd⟩

theorem accepts_many1_rule_iff {cls : CharClass} {s : Text} :
    (Rule.many1 cls.rule).accepts s = true ↔ s ≠ [] ∧ ∀ c ∈ s, cls.contains c = true := by
  rw [← accepts_many_rule_iff, Rule.accepts_iff, Rule.accepts_iff, parse?_many_rule, parse?_many1_rule]
  constructor
  · intro h
    split at h
    · cases h
    · rename_i hne
      refine ⟨?_, h⟩
      rintro rfl
      exact hne rfl
  · rintro ⟨hne, h⟩
    have ht : s.takeWhile cls.contains = s := (Match.mk.inj (Option.some.inj h)).1
    rw [if_neg (by rw [ht]; exact hne)]
    exact h

end CharClass

end HttpFields
