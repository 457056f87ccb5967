import HttpFields.Abnf.Rule

/-!
# `HttpFields.Abnf.Language` — the texts a rule stands for

The language of a rule, said without an order of trial: a sequence stands for the texts of its rules put together, a
choice for the texts of any of its rules, and a repetition for any allowed number of texts of its rule put together.
`Derives` is that relation between a rule and a text. Matching may miss a text of the language, since it never goes
back.

* `derives_literal_iff` — a literal text stands for itself alone.
* `Derives.optional_nil`, `Derives.optional` — an optional rule stands for nothing or for what its rule stands for.
-/

namespace HttpFields.Rule

/-- The text belongs to the language of the rule. -/
inductive Derives : Rule → Text → Prop where
  | terminal (c : Char) : Derives (.terminal c) [c]
  | sequenceNil : Derives (.sequence []) []
  | sequenceCons {r : Rule} {rs : List Rule} {s t : Text} :
      Derives r s → Derives (.sequence rs) t → Derives (.sequence (r :: rs)) (s ++ t)
  | choice {r : Rule} {rs : List Rule} {s : Text} : r ∈ rs → Derives r s → Derives (.choice rs) s
  | repetition {r : Rule} {min : Nat} {max : Option Nat} (parts : List Text) :
      (∀ part ∈ parts, Derives r part) → min ≤ parts.length → (∀ n ∈ max, parts.length ≤ n) →
      Derives (.repetition r min max) parts.flatten

/-- A terminal stands for its character. -/
theorem derives_terminal_iff {c : Char} {s : Text} : Derives (.terminal c) s ↔ s = [c] := by
  constructor
  · rintro ⟨⟩
    rfl
  · rintro rfl
    exact .terminal c

/-- A sequence stands for a text of its first rule followed by a text of the others. -/
theorem derives_sequence_cons_iff {r : Rule} {rs : List Rule} {s : Text} :
    Derives (.sequence (r :: rs)) s ↔ ∃ t u, s = t ++ u ∧ Derives r t ∧ Derives (.sequence rs) u := by
  constructor
  · intro h
    cases h with
    | sequenceCons ht hu => exact ⟨_, _, rfl, ht, hu⟩
  · rintro ⟨t, u, rfl, ht, hu⟩
    exact .sequenceCons ht hu

/-- A choice stands for the texts of its rules. -/
theorem derives_choice_iff {rs : List Rule} {s : Text} : Derives (.choice rs) s ↔ ∃ r ∈ rs, Derives r s := by
  constructor
  · intro h
    cases h with
    | choice hr hs => exact ⟨_, hr, hs⟩
  · rintro ⟨r, hr, hs⟩
    exact .choice hr hs

/-- A repetition stands for an allowed number of texts of its rule put together. -/
theorem derives_repetition_iff {r : Rule} {min : Nat} {max : Option Nat} {s : Text} :
    Derives (.repetition r min max) s ↔ ∃ parts : List Text, s = parts.flatten ∧
      (∀ part ∈ parts, Derives r part) ∧ min ≤ parts.length ∧ ∀ n ∈ max, parts.length ≤ n := by
  constructor
  · intro h
    cases h with
    | repetition parts hparts hmin hmax => exact ⟨parts, rfl, hparts, hmin, hmax⟩
  · rintro ⟨parts, rfl, hparts, hmin, hmax⟩
    exact .repetition parts hparts hmin hmax

/-- A literal text stands for itself alone. -/
theorem derives_literal_iff {t s : Text} : Derives (literal t) s ↔ s = t := by
  unfold literal
  induction t generalizing s with
  | nil =>
    constructor
    · rintro ⟨⟩
      rfl
    · rintro rfl
      exact .sequenceNil
  | cons c t ih =>
    rw [List.map_cons, derives_sequence_cons_iff]
    constructor
    · rintro ⟨x, y, rfl, hx, hy⟩
      rw [derives_terminal_iff.1 hx, ih.1 hy]
      rfl
    · rintro rfl
      exact ⟨[c], t, rfl, .terminal c, ih.2 rfl⟩

/-- An optional rule stands for nothing. -/
theorem Derives.optional_nil (r : Rule) : Derives (.optional r) [] :=
  .repetition [] (fun _ h => absurd h List.not_mem_nil) (Nat.le_refl 0) fun _ _ => Nat.zero_le _

/-- An optional rule stands for what its rule stands for. -/
theorem Derives.optional {r : Rule} {s : Text} (h : Derives r s) : Derives (.optional r) s := by
  have hs : [s].flatten = s := by simp
  rw [← hs]
  refine .repetition [s] ?_ (Nat.zero_le _) ?_
  · intro part hpart
    rw [List.mem_singleton.1 hpart]
    exact h
  · intro n hn
    cases hn
    exact Nat.le_refl 1

end HttpFields.Rule
