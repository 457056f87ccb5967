import HttpFields.Abnf.Rule

/-!
# `HttpFields.Abnf.Counting` — matching by counting down

A second account of matching, in which a repetition is nothing but a pair of counters: it ends when the greatest
number of matches is used up, and it does not notice that a match was empty. A repetition without a greatest number
needs one here. A `Cap` supplies it, freely for each rule, least number and text; it stands for no limit as long as it
is not less than the least number asked for and the length of the text.

* `countDown?_zero`, `countDown?_succ` — the two equations of the counters.
-/

namespace HttpFields.Rule

/-- Greatest numbers for the repetitions that have none, to be used on texts of at most `length` characters. -/
structure Cap (length : Nat) where
  greatest : Rule → Nat → Text → Nat
  min_le : ∀ rule min s, s.length ≤ length → min ≤ greatest rule min s
  length_le : ∀ rule min s, s.length ≤ length → s.length ≤ greatest rule min s

/-- One number for all repetitions, raised where a repetition asks for more. -/
def Cap.uniform {length : Nat} (cap : Nat) (h : length ≤ cap) : Cap length where
  greatest _ min _ := max min cap
  min_le _ _ _ _ := Nat.le_max_left ..
  length_le _ _ _ hs := Nat.le_trans (Nat.le_trans hs h) (Nat.le_max_right ..)

instance {length : Nat} : Inhabited (Cap length) := ⟨.uniform length (Nat.le_refl length)⟩

/-- Applies a matcher `max` times, or as often as it matches, and fails if it stops before the `min`-th time. -/
def countDown? (item : Text → Option Match) : (max min : Nat) → Text → Option Match
  | 0, _, s => some (.empty s)
  | max + 1, min, s =>
    match item s with
    | some m => (countDown? item max (min - 1) m.rest).map (.prepend m.taken)
    | none => if min = 0 then some (.empty s) else none

theorem countDown?_zero (item : Text → Option Match) (min : Nat) (s : Text) :
    countDown? item 0 min s = some (.empty s) := rfl

theorem countDown?_succ (item : Text → Option Match) (max min : Nat) (s : Text) :
    countDown? item (max + 1) min s =
      match item s with
      | some m => (countDown? item max (min - 1) m.rest).map (.prepend m.taken)
      | none => if min = 0 then some (.empty s) else none := rfl

mutual

/-- The match of a rule at the start of a text, by counting. A repetition whose least number exceeds its greatest
    fails; `greatest` gives the greatest number where a repetition has none. -/
def countParse? (greatest : Rule → Nat → Text → Nat) : Rule → Text → Option Match
  | .terminal _, [] => none
  | .terminal value, c :: s => if c = value then some ⟨[c], s⟩ else none
  | .sequence rules, s => countEach? greatest rules s
  | .choice rules, s => countFirst? greatest rules s
  | .repetition rule min max, s =>
    let max := max.getD (greatest rule min s)
    if max < min then none else countDown? (rule.countParse? greatest) max min s

/-- The match of rules one after the other, by counting. -/
def countEach? (greatest : Rule → Nat → Text → Nat) : List Rule → Text → Option Match
  | [], s => some (.empty s)
  | rule :: rules, s =>
    (rule.countParse? greatest s).bind fun m => (countEach? greatest rules m.rest).map (.prepend m.taken)

/-- The match of the first rule that has one, by counting. -/
def countFirst? (greatest : Rule → Nat → Text → Nat) : List Rule → Text → Option Match
  | [], _ => none
  | rule :: rules, s => (rule.countParse? greatest s).or (countFirst? greatest rules s)

end

end HttpFields.Rule
