import HttpFields.Proofs.Abnf.Counting
import HttpFields.Proofs.Abnf.Equivalence

/-!
# `HttpFields.Proofs.Abnf.Iteration` — laws of repetition

A grammar may ask for `a` matches of a rule and then for some more, or put one repetition into another. Both are the same
as a single repetition, but not for the reason that holds of languages, since the matcher does not choose how many matches
a repetition has.

Where a repetition is split, the first part may end early: its rule fails, which is a failure of the whole as well, or it
takes nothing, which ends the second part in the same place. On the counters of `HttpFields.Abnf.Counting` an empty match
is like any other, so there the law is plain (`countDown?_add`). Where repetitions are nested, the inner one leaves a text
of which it takes nothing (`exists_parse?_many`), and the outer one is over.

* `equivalent_repetition_add`, `equivalent_repetition_many` — the two laws.
* `equivalent_repetition` — both of them.
-/

namespace HttpFields.Rule

/-! ## Repetitions one after the other -/

/-- **Split repetitions.** A rule exactly `a` times and then from `min` to `max` times is the rule from `a + min` to
    `a + max` times. -/
theorem equivalent_repetition_add (r : Rule) (a min : Nat) (max : Option Nat) :
    Equivalent (.sequence [exactly a r, .repetition r min max]) (.repetition r (a + min) (max.map (a + ·))) := by
  intro s
  rw [parse?_sequence_cons]
  simp only [parse?_sequence_singleton]
  by_cases hcrossed : max.any (· < min) = true
  · -- bounds that cross still do so when both are raised, and no match of the first part helps
    have hraised : (max.map (a + ·)).any (· < a + min) = true := by
      simpa [Option.any_map] using hcrossed
    simp [parse?_repetition_of_crossed hcrossed, parse?_repetition_of_crossed hraised]
  · have hmax : ∀ n ∈ max, min ≤ n := forall_le_of_not_crossed hcrossed
    obtain ⟨limit, hmin, hlimit⟩ := exists_limits hmax s
    have hexactly : (exactly a r).parse? s = countDown? r.parse? a a s :=
      parse?_repetition_eq_countDown? r a a (some a) s (Nat.le_refl a) rfl
    have hwhole := parse?_repetition_eq_countDown? r (a + limit) (a + min) (max.map (a + ·)) s
      (Nat.add_le_add_left hmin a) (hlimit.add a)
    rw [hwhole, countDown?_add, ← hexactly]
    -- one limit serves for the second part too, which has no more text left than the whole
    apply Option.bind_congr
    intro m hm
    have hrest : m.rest.length ≤ s.length := Match.length_rest_le (whole_of_parse? hm)
    rw [parse?_repetition_eq_countDown? r limit min max m.rest hmin (hlimit.of_length_le hrest)]

/-! ## Repetitions inside each other -/

/-- **Nothing is left to take.** Any number of matches is always a match, and leaves a text of which any number of matches
    takes nothing. -/
theorem exists_parse?_many (r : Rule) (s : Text) :
    ∃ m, (many r).parse? s = some m ∧ (many r).parse? m.rest = some (.empty m.rest) := by
  have hcourse : Course r 0 none s ((many r).parse? s) := course_parse? r s 0 none
  generalize hmin : 0 = min at hcourse
  generalize hmax : none = max at hcourse
  generalize (many r).parse? s = o at hcourse
  induction hcourse with
  | crossed h =>
    subst hmax
    cases h
  | full => cases hmax
  | short _ => cases hmin
  | @done max s h => exact ⟨.empty s, rfl, Takes.repetition_nil (Or.inr h)⟩
  | @idle min max s _ h => exact ⟨.empty s, rfl, parse?_repetition_of_empty nofun h⟩
  | @step min max m o _ _ _ _ _ ih =>
    subst hmin hmax
    obtain ⟨m', rfl, hrest⟩ := ih rfl rfl
    exact ⟨m'.prepend m.taken, rfl, hrest⟩

/-- **Nested repetitions.** Any number of matches, repeated within bounds that allow for one round at least, is any number
    of matches. -/
theorem equivalent_repetition_many (r : Rule) {min : Nat} {max : Option Nat} (h : ∀ n ∈ max, 1 ≤ n ∧ min ≤ n) :
    Equivalent (.repetition (many r) min max) (many r) := by
  intro s
  obtain ⟨m, hm, hrest⟩ := exists_parse?_many r s
  have hmin : ∀ n ∈ max, min ≤ n := fun n hn => (h n hn).2
  by_cases htaken : m.taken = []
  · obtain rfl := eq_empty_of_taken_nil hm htaken
    rw [parse?_repetition_of_empty hmin hm, hm]
  · -- the first round takes all there is, and the second one nothing
    have hzero : max ≠ some 0 := by
      rintro rfl
      exact absurd (h 0 rfl).1 (Nat.not_succ_le_zero 0)
    have hpred : ∀ n ∈ max.map (· - 1), min - 1 ≤ n := by
      intro n hn
      obtain ⟨k, hk, rfl⟩ := Option.map_eq_some_iff.mp hn
      exact Nat.sub_le_sub_right (hmin k hk) 1
    rw [parse?_repetition_of_step hmin hzero hm htaken, parse?_repetition_of_empty hpred hrest, hm]
    simp [Match.empty, Match.prepend]

/-- **Laws of repetition.** A repetition may be split after any number of matches, the bounds of the rest being what is
    left of its bounds, crossed or not; and any number of matches may be repeated within any bounds that do not cross and
    allow for one round. Both hold of rules that take nothing as well. -/
theorem equivalent_repetition :
    (∀ (r : Rule) (a min : Nat) (max : Option Nat),
        Equivalent (.sequence [exactly a r, .repetition r min max]) (.repetition r (a + min) (max.map (a + ·)))) ∧
      ∀ (r : Rule) (min : Nat) (max : Option Nat), (∀ n ∈ max, 1 ≤ n ∧ min ≤ n) →
        Equivalent (.repetition (many r) min max) (many r) := by
  refine ⟨equivalent_repetition_add, ?_⟩
  intro r min max h
  exact equivalent_repetition_many r h

/-- Three rounds are asked for where there is no more than one, of a rule that may take nothing. Bounds that allow for no
    round are another matter. -/
theorem equivalent_repetition_rounds :
    let runs : Rule := many (optional 'a')
    (∀ n ∈ some 3, 1 ≤ n ∧ 3 ≤ n) ∧ Equivalent (.repetition runs 3 (some 3)) runs ∧
      (Rule.repetition runs 3 (some 3)).parse? ['a', 'a', 'b'] = some ⟨['a', 'a'], ['b']⟩ ∧
      ¬ Equivalent (.repetition runs 0 (some 0)) runs := by
  intro runs
  have hbounds : ∀ n ∈ some 3, 1 ≤ n ∧ 3 ≤ n := by simp
  refine ⟨hbounds, equivalent_repetition.2 (optional 'a') 3 (some 3) hbounds, by decide, ?_⟩
  intro h
  exact absurd (h ['a']) (by decide)

end HttpFields.Rule
