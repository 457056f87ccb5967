import Mathlib.Order.Bounds.Basic
import HttpFields.Proofs.Abnf.OneOf

/-!
# `HttpFields.Proofs.Abnf.Runs` — how far a run of characters goes

Words, blanks and numbers are all repetitions of a class of characters, and a repetition of any other kind goes as far as
its own matches take it. For a class, how far that is can be read off the text: the longest prefix made of characters of
the class, or as much of it as the greatest number allows. There is no third way to end: a class never takes nothing,
so the least number counts for as much as it says.

* `Run` — the longest prefix of characters with a property.
* `OneOf.takes_run`, `OneOf.parse?_eq_none_of_run` — a run that is long enough, and one that is not.
* `parse?_repetition_class` — repetitions of classes.
-/

namespace HttpFields.Rule

/-! ## The longest prefix -/

/-- The longest prefix of the text that is made of characters with the property has the given length. -/
def Run (P : Char → Prop) (s : Text) (k : Nat) : Prop := IsGreatest {n | n ≤ s.length ∧ ∀ c ∈ s.take n, P c} k

/-- The character behind a run ends it. -/
theorem Run.head_drop {P : Char → Prop} {s : Text} {k : Nat} (h : Run P s k) : ∀ c ∈ (s.drop k).head?, ¬ P c := by
  intro c hc hP
  rw [List.head?_drop, Option.mem_def, List.getElem?_eq_some_iff] at hc
  obtain ⟨hk, rfl⟩ := hc
  -- with the character the prefix would be longer
  have hlonger : k + 1 ≤ s.length ∧ ∀ c ∈ s.take (k + 1), P c := by
    refine ⟨hk, ?_⟩
    rw [List.take_add_one, List.getElem?_eq_getElem hk]
    intro d hd
    rcases List.mem_append.mp hd with hd | hd
    · exact h.1.2 d hd
    · obtain rfl := List.mem_singleton.mp hd
      exact hP
  exact absurd (h.2 hlonger) (Nat.not_succ_le_self k)

theorem exists_run (P : Char → Prop) (s : Text) : ∃ k, Run P s k := by
  induction s with
  | nil => exact ⟨0, ⟨Nat.le_refl 0, List.forall_mem_nil _⟩, fun n hn => hn.1⟩
  | cons c s ih =>
    by_cases hc : P c
    · obtain ⟨k, ⟨hk, hP⟩, hgreatest⟩ := ih
      refine ⟨k + 1, ⟨Nat.succ_le_succ hk, List.forall_mem_cons.mpr ⟨hc, hP⟩⟩, ?_⟩
      rintro (_ | n) ⟨hn, hPn⟩
      · exact Nat.zero_le _
      · exact Nat.succ_le_succ (hgreatest ⟨Nat.le_of_succ_le_succ hn, (List.forall_mem_cons.mp hPn).2⟩)
    · refine ⟨0, ⟨Nat.zero_le _, List.forall_mem_nil _⟩, ?_⟩
      rintro (_ | n) ⟨-, hPn⟩
      · exact Nat.le_refl 0
      · exact absurd (hPn c List.mem_cons_self) hc

/-! ## Repetitions -/

/-- How much of a run of the given length a repetition takes: all of it, unless its greatest number is smaller. -/
def allowed (max : Option Nat) (k : Nat) : Nat := max.elim k (Nat.min k)

theorem allowed_le (max : Option Nat) (k : Nat) : allowed max k ≤ k := by
  cases max with
  | none => exact Nat.le_refl k
  | some n => exact Nat.min_le_left k n

theorem allowed_le_of_mem {max : Option Nat} {n : Nat} (hn : n ∈ max) (k : Nat) : allowed max k ≤ n := by
  cases hn
  exact Nat.min_le_right k n

/-- A repetition that does not take all of a run has reached its greatest number. -/
theorem eq_some_allowed_or (max : Option Nat) (k : Nat) : max = some (allowed max k) ∨ allowed max k = k := by
  cases max with
  | none => exact Or.inr rfl
  | some n =>
    rcases Nat.le_total k n with hle | hle
    · exact Or.inr (Nat.min_eq_left hle)
    · exact Or.inl (congrArg some (Nat.min_eq_right hle).symm)

theorem le_allowed {min k : Nat} {max : Option Nat} (hmin : min ≤ k) (hmax : ∀ n ∈ max, min ≤ n) :
    min ≤ allowed max k := by
  rcases eq_some_allowed_or max k with h | h
  · exact hmax _ h
  · rw [h]
    exact hmin

section OneOf

variable {P : Char → Prop} {r : Rule} (hr : OneOf P r)

include hr

/-- **Long enough.** A repetition whose least number is not above the length of the run takes the run, or as much of it
    as its greatest number allows. -/
theorem OneOf.takes_run {min : Nat} {max : Option Nat} {s : Text} {k : Nat} (hk : Run P s k) (hmin : min ≤ k)
    (hmax : ∀ n ∈ max, min ≤ n) : (repetition r min max).Takes (s.take (allowed max k)) (s.drop (allowed max k)) := by
  have hlength : (s.take (allowed max k)).length = allowed max k :=
    List.length_take_of_le (Nat.le_trans (allowed_le max k) hk.1.1)
  apply hr.takes_repetition
  · intro c hc
    exact hk.1.2 c ((List.take_prefix_take_left (allowed_le max k)).subset hc)
  · rw [hlength]
    exact le_allowed hmin hmax
  · intro n hn
    rw [hlength]
    exact allowed_le_of_mem hn k
  · rw [hlength]
    -- where the greatest number does not end the repetition, the run does
    rcases eq_some_allowed_or max k with h | h
    · exact Or.inl h
    · rw [h]
      exact Or.inr hk.head_drop

/-- **Too short.** A repetition whose least number is above the length of the run fails. -/
theorem OneOf.parse?_eq_none_of_run {min : Nat} {max : Option Nat} {s : Text} {k : Nat} (hk : Run P s k)
    (hlt : k < min) : (repetition r min max).parse? s = none := by
  rw [Option.eq_none_iff_forall_ne_some]
  intro m hm
  obtain ⟨hP, hmin, -⟩ := hr.derives_repetition_iff.mp (derives_of_parse? hm)
  -- what it takes is a prefix of such characters as well, so the run is not shorter
  have hle : m.taken.length ≤ k := by
    apply hk.2
    rw [← taken_append_rest hm]
    refine ⟨List.length_append ▸ Nat.le_add_right _ _, ?_⟩
    rw [List.take_left]
    exact hP
  omega

/-- **How far a repetition goes.** The length of the run and the bounds settle what a repetition takes. -/
theorem OneOf.parse?_repetition_of_run {s : Text} {k : Nat} (hk : Run P s k) (min : Nat) (max : Option Nat) :
    (repetition r min max).parse? s =
      if max.any (· < min) = true ∨ k < min then none
      else some ⟨s.take (allowed max k), s.drop (allowed max k)⟩ := by
  by_cases hcrossed : max.any (· < min) = true
  · rw [parse?_repetition_of_crossed hcrossed, if_pos (Or.inl hcrossed)]
  · by_cases hshort : k < min
    · rw [hr.parse?_eq_none_of_run hk hshort, if_pos (Or.inr hshort)]
    · have htakes := hr.takes_run hk (Nat.not_lt.mp hshort) (forall_le_of_not_crossed hcrossed)
      rw [Takes, List.take_append_drop] at htakes
      rw [htakes, if_neg (not_or.mpr ⟨hcrossed, hshort⟩)]

end OneOf

/-! ## Classes -/

/-- **Runs of a class.** A repetition of a class fails exactly if its bounds cross, or if its least number is above the
    length of the longest prefix made of characters that the class mentions. Otherwise it takes that prefix, or as much of
    it as its greatest number allows. Spans are classes, and mention the characters between their ends. -/
theorem parse?_repetition_class :
    (∀ low high : Char, IsClass (between low high) ∧ ∀ c, (between low high).Mentions c ↔ low ≤ c ∧ c ≤ high) ∧
      ∀ {C : Rule}, IsClass C → ∀ s : Text,
        ∃ k, IsGreatest {n | n ≤ s.length ∧ ∀ c ∈ s.take n, C.Mentions c} k ∧
          ∀ (min : Nat) (max : Option Nat), (repetition C min max).parse? s =
            if max.any (· < min) = true ∨ k < min then none
            else some ⟨s.take (allowed max k), s.drop (allowed max k)⟩ := by
  refine ⟨fun low high => ⟨isClass_between low high, fun _ => mentions_between_iff⟩, ?_⟩
  intro C hC s
  obtain ⟨k, hk⟩ := exists_run (Mentions · C) s
  exact ⟨k, hk, hC.oneOf.parse?_repetition_of_run hk⟩

/-- A class in a class, with a span of no characters but its ends, a span whose ends are the wrong way round, and a
    character that stands in it twice. -/
theorem parse?_repetition_class_nested :
    let C : Rule := .choice ['a', .choice [.between '\ud7ff' '\ue000', .between 'z' 'b', .choice []], 'a']
    let s : Text := ['a', '\ue000', 'a', 'x', 'a']
    IsClass C ∧ IsGreatest {n | n ≤ s.length ∧ ∀ c ∈ s.take n, C.Mentions c} 3 ∧
      (repetition C 4 none).parse? s = none ∧
      (repetition C 1 (some 2)).parse? s = some ⟨['a', '\ue000'], ['a', 'x', 'a']⟩ := by
  intro C s
  have hC : IsClass C := by
    refine .choice (List.forall_mem_cons.mpr ⟨.terminal 'a', List.forall_mem_cons.mpr ⟨.choice ?_, ?_⟩⟩)
    · simp [isClass_between, IsClass.choice]
    · simp [IsClass.terminal]
  have hmentions : ∀ c, C.Mentions c ↔ c = 'a' ∨ ('\ud7ff' ≤ c ∧ c ≤ '\ue000' ∨ 'z' ≤ c ∧ c ≤ 'b') ∨ c = 'a' := by
    simp [C, mentions_choice_iff, mentions_between_iff]
  have hthree : IsGreatest {n | n ≤ s.length ∧ ∀ c ∈ s.take n, C.Mentions c} 3 := by
    simp only [hmentions]
    refine ⟨⟨by decide, by simp [s]⟩, ?_⟩
    rintro n ⟨-, hn⟩
    by_contra hlt
    have hx : 'x' ∈ s.take n :=
      (List.take_prefix_take_left (Nat.lt_of_not_le hlt)).subset (show 'x' ∈ s.take 4 by decide)
    exact absurd (hn 'x' hx) (by decide)
  obtain ⟨k, hk, hparse⟩ := parse?_repetition_class.2 hC s
  obtain rfl : 3 = k := hthree.unique hk
  exact ⟨hC, hthree, hparse 4 none, hparse 1 (some 2)⟩

end HttpFields.Rule
