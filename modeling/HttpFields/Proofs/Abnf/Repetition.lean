import HttpFields.Abnf.Rule

/-!
# `HttpFields.Proofs.Abnf.Repetition` — the course of a repetition

A repetition goes on for as long as its rule takes something. `Course` spells out the ways in which it can go, one
constructor for each, so that a fact about repetitions is proved by induction on their course rather than on the text
with a case analysis of its own.

* `course_parse?` — every repetition takes one of these courses, to the match that it has.
-/

namespace HttpFields.Rule

/-- The course of a repetition of the rule `r` on a text, with the least and the greatest number of matches still to
    come, up to its outcome. -/
inductive Course (r : Rule) : Nat → Option Nat → Text → Option Match → Prop where
  /-- The least number exceeds the greatest, which is a failure. -/
  | crossed {min : Nat} {max : Option Nat} {s : Text} : max.any (· < min) = true → Course r min max s none
  /-- No more matches are allowed. -/
  | full {s : Text} : Course r 0 (some 0) s (some (.empty s))
  /-- The rule fails when the least number is reached. -/
  | done {max : Option Nat} {s : Text} : r.parse? s = none → Course r 0 max s (some (.empty s))
  /-- The rule fails before the least number is reached. -/
  | short {min : Nat} {max : Option Nat} {s : Text} : r.parse? s = none → Course r (min + 1) max s none
  /-- The rule takes nothing, which ends the repetition whatever the least number. -/
  | idle {min : Nat} {max : Option Nat} {s : Text} :
      (∀ n ∈ max, min ≤ n) → r.parse? s = some (.empty s) → Course r min max s (some (.empty s))
  /-- The rule takes something, and the repetition goes on with the rest. -/
  | step {min : Nat} {max : Option Nat} {m : Match} {o : Option Match} :
      (∀ n ∈ max, min ≤ n) → max ≠ some 0 → r.parse? m.whole = some m → m.taken ≠ [] →
      Course r (min - 1) (max.map (· - 1)) m.rest o → Course r min max m.whole (o.map (.prepend m.taken))

theorem any_lt_eq_false {min : Nat} {max : Option Nat} (h : ∀ n ∈ max, min ≤ n) : max.any (· < min) = false := by
  cases max with
  | none => rfl
  | some n => exact decide_eq_false (Nat.not_lt.mpr (h n rfl))

/-- Bounds that do not cross. -/
theorem forall_le_of_not_crossed {min : Nat} {max : Option Nat} (h : ¬ max.any (· < min) = true) :
    ∀ n ∈ max, min ≤ n := by
  rintro n rfl
  simpa using h

/-- A match that takes nothing leaves the whole text. -/
theorem eq_empty_of_taken_nil {r : Rule} {s : Text} {m : Match} (h : r.parse? s = some m) (htaken : m.taken = []) :
    m = .empty s := by
  have hrest := taken_append_rest h
  rw [htaken, List.nil_append] at hrest
  obtain ⟨taken, rest⟩ := m
  exact congr (congrArg Match.mk htaken) hrest

/-- A repetition whose least number exceeds its greatest fails. -/
theorem parse?_repetition_of_crossed {min : Nat} {max : Option Nat} (h : max.any (· < min) = true) (r : Rule)
    (s : Text) : (repetition r min max).parse? s = none := by
  rw [parse?_repetition, if_pos h]

/-- A repetition takes nothing where its rule takes nothing. -/
theorem parse?_repetition_of_empty {r : Rule} {min : Nat} {max : Option Nat} {s : Text} (hmax : ∀ n ∈ max, min ≤ n)
    (h : r.parse? s = some (.empty s)) : (repetition r min max).parse? s = some (.empty s) := by
  rw [parse?_repetition, any_lt_eq_false hmax, if_neg Bool.false_ne_true, h]
  show (if max = some 0 then _ else _) = _
  split <;> rfl

/-- Where its rule takes something, a repetition goes on behind it. -/
theorem parse?_repetition_of_step {r : Rule} {min : Nat} {max : Option Nat} {s : Text} {m : Match}
    (hmax : ∀ n ∈ max, min ≤ n) (hzero : max ≠ some 0) (h : r.parse? s = some m) (htaken : m.taken ≠ []) :
    (repetition r min max).parse? s =
      ((repetition r (min - 1) (max.map (· - 1))).parse? m.rest).map (.prepend m.taken) := by
  rw [parse?_repetition, any_lt_eq_false hmax, if_neg Bool.false_ne_true, if_neg hzero, h]
  exact if_neg htaken

/-- A rule exactly once is the rule. -/
theorem parse?_exactly_one (r : Rule) (s : Text) : (exactly 1 r).parse? s = r.parse? s := by
  rw [exactly, parse?_repetition]
  cases hm : r.parse? s with
  | none => rfl
  | some m =>
    show (if m.taken = [] then _ else Option.map _ ((repetition r 0 (some 0)).parse? m.rest)) = some m
    split
    · rename_i htaken
      rw [eq_empty_of_taken_nil hm htaken]
    · rw [parse?_repetition]
      exact congrArg some (congrArg (Match.mk · m.rest) (List.append_nil m.taken))

/-- **Every repetition takes its course**, which the lengths of the texts it is applied to bring to an end. -/
theorem course_parse? (r : Rule) (s : Text) (min : Nat) (max : Option Nat) :
    Course r min max s ((repetition r min max).parse? s) := by
  rw [parse?_repetition]
  split
  · exact .crossed ‹_›
  · rename_i hle
    have hmax : ∀ n ∈ max, min ≤ n := forall_le_of_not_crossed hle
    split
    · rename_i hzero
      subst hzero
      have hmin : min = 0 := Nat.le_zero.mp (hmax 0 rfl)
      subst hmin
      exact .full
    · rename_i hzero
      cases hm : r.parse? s with
      | none =>
        cases min with
        | zero => exact .done hm
        | succ min => exact .short hm
      | some m =>
        show Course r min max s (if m.taken = [] then _ else _)
        split
        · rename_i htaken
          exact .idle hmax (eq_empty_of_taken_nil hm htaken ▸ hm)
        · rename_i htaken
          have hs : m.whole = s := whole_of_parse? hm
          have hrest : m.rest.length < s.length := Match.length_rest_lt hs htaken
          subst hs
          exact .step hmax hzero hm htaken (course_parse? r m.rest (min - 1) (max.map (· - 1)))
termination_by s.length

end HttpFields.Rule
