import Mathlib.Computability.Language
import Mathlib.Order.CompletePartialOrder
import HttpFields.Proofs.Abnf.Derivation

/-!
# `HttpFields.Proofs.Abnf.Denotation` — the language of a rule as a set

A grammar is read without any thought of matching: a terminal denotes its one-character text, a sequence the product of
the languages of its rules, a choice their union, and a repetition the union of the powers that its bounds allow, which
is empty when the bounds cross. `language` says just that with the operations on languages, so it knows no order of
trial, no greed and no early end.

The matcher knows all three. The early end is the one that could betray the grammar: where the rule of a repetition
matches nothing, the repetition is over at once, be the least number of matches reached or not. It does not, for the
rule has the empty text in its language then, and a power is not changed by further factors taken from there
(`derives_of_parse?`).

* `language`, `derives_iff_mem_language` — the set, and its members one derivation at a time.
* `language_repetition_of_lt` — bounds that cross.
* `language_literal`, `mem_language_between_iff`, `language_optional`, `language_many` — derived forms.
* `taken_mem_language` — what is matched belongs to the language.
-/

namespace HttpFields.Rule

open scoped Computability

/-! ## The language -/

mutual

/-- The texts that a rule denotes. -/
def language : Rule → Language Char
  | .terminal c => {[c]}
  | .sequence rules => product rules
  | .choice rules => union rules
  | .repetition rule min max => ⨆ (k : Nat) (_ : min ≤ k) (_ : ∀ n ∈ max, k ≤ n), rule.language ^ k

/-- The texts of the given rules put together in order. -/
def product : List Rule → Language Char
  | [] => 1
  | rule :: rules => rule.language * product rules

/-- The texts of any of the given rules. -/
def union : List Rule → Language Char
  | [] => 0
  | rule :: rules => rule.language + union rules

end

@[simp] theorem mem_language_terminal_iff {c : Char} {s : Text} : s ∈ (terminal c).language ↔ s = [c] := by
  rw [language]
  exact Set.mem_singleton_iff

theorem language_sequence (rs : List Rule) : (sequence rs).language = (rs.map language).prod := by
  rw [language]
  induction rs with
  | nil => simp [product]
  | cons r rs ih => simp [product, ih]

theorem language_choice (rs : List Rule) : (choice rs).language = (rs.map language).sum := by
  rw [language]
  induction rs with
  | nil => simp [union]
  | cons r rs ih => simp [union, ih]

theorem mem_language_repetition_iff {r : Rule} {min : Nat} {max : Option Nat} {s : Text} :
    s ∈ (repetition r min max).language ↔ ∃ k, min ≤ k ∧ (∀ n ∈ max, k ≤ n) ∧ s ∈ r.language ^ k := by
  rw [language]
  simp only [Language.mem_iSup, exists_prop]

/-- **Derivations.** The language of a rule is the set of the texts that can be derived from it. -/
theorem derives_iff_mem_language {r : Rule} {s : Text} : Derives r s ↔ s ∈ r.language := by
  induction r using Rule.induction generalizing s with
  | terminal c => rw [derives_terminal_iff, mem_language_terminal_iff]
  | sequence rs ih =>
    rw [language_sequence]
    induction rs generalizing s with
    | nil => rw [derives_sequence_nil_iff, List.map_nil, List.prod_nil, Language.mem_one]
    | cons r rs ihrs =>
      have hrs : ∀ {u : Text}, Derives (.sequence rs) u ↔ u ∈ (rs.map language).prod :=
        ihrs fun r hr => ih r (List.mem_cons_of_mem _ hr)
      rw [derives_sequence_cons_iff, List.map_cons, List.prod_cons, Language.mem_mul]
      simp only [ih r List.mem_cons_self, hrs]
      constructor
      · rintro ⟨t, u, hs, ht, hu⟩
        exact ⟨t, ht, u, hu, hs.symm⟩
      · rintro ⟨t, ht, u, hu, hs⟩
        exact ⟨t, u, hs.symm, ht, hu⟩
  | choice rs ih =>
    rw [language_choice]
    induction rs with
    | nil => simp [derives_choice_iff]
    | cons r rs ihrs =>
      have hrs : Derives (.choice rs) s ↔ s ∈ (rs.map language).sum :=
        ihrs fun r hr => ih r (List.mem_cons_of_mem _ hr)
      rw [List.map_cons, List.sum_cons, Language.mem_add, ← ih r List.mem_cons_self, ← hrs, derives_choice_iff,
        derives_choice_iff]
      simp only [List.mem_cons, exists_eq_or_imp]
  | repetition r min max ih =>
    rw [derives_repetition_iff, mem_language_repetition_iff]
    simp only [Language.mem_pow, ih]
    constructor
    · rintro ⟨parts, hs, hparts, hmin, hmax⟩
      exact ⟨parts.length, hmin, hmax, parts, hs, rfl, hparts⟩
    · rintro ⟨k, hmin, hmax, parts, hs, rfl, hparts⟩
      exact ⟨parts, hs, hparts, hmin, hmax⟩

/-- A repetition whose bounds cross denotes nothing. -/
theorem language_repetition_of_lt {r : Rule} {min max : Nat} (h : max < min) :
    (repetition r min (some max)).language = 0 := by
  ext s
  rw [mem_language_repetition_iff]
  constructor
  · rintro ⟨k, hmin, hmax, -⟩
    exact absurd (hmax max rfl) (by omega)
  · intro hs
    exact absurd hs (Language.notMem_zero s)

/-! ## Derived forms -/

theorem language_literal (t : Text) : (literal t).language = {t} := by
  ext s
  rw [← derives_iff_mem_language, derives_literal_iff]
  exact Set.mem_singleton_iff.symm

/-- A span of characters denotes each of them, as a text of its own. -/
theorem mem_language_between_iff {low high : Char} {s : Text} :
    s ∈ (between low high).language ↔ ∃ c, low ≤ c ∧ c ≤ high ∧ s = [c] := by
  rw [← derives_iff_mem_language, between, derives_choice_iff]
  simp [mem_charactersBetween, derives_terminal_iff, and_assoc]

theorem language_optional (r : Rule) : (optional r).language = 1 + r.language := by
  ext s
  rw [← derives_iff_mem_language, derives_optional_iff, derives_iff_mem_language, Language.mem_add, Language.mem_one]

theorem language_many (r : Rule) : (many r).language = r.language∗ := by
  ext s
  rw [many, mem_language_repetition_iff, Language.kstar_eq_iSup_pow, Language.mem_iSup]
  simp

/-! ## What is matched -/

/-- **What is matched belongs to the language** of the rule. So a text that a rule matches in full is a text of its
    grammar, also where a repetition on the way ended before it had counted as many matches as it asks for. -/
theorem taken_mem_language (r : Rule) (s : Text) :
    (∀ m, r.parse? s = some m → m.taken ∈ r.language) ∧ ∀ t, r.parseAll? s = some t → t = s ∧ s ∈ r.language := by
  have hsound : ∀ m, r.parse? s = some m → m.taken ∈ r.language := fun m hm =>
    derives_iff_mem_language.mp (derives_of_parse? hm)
  refine ⟨hsound, ?_⟩
  intro t ht
  obtain ⟨hparse, hts⟩ := parseAll?_eq_some_iff.mp ht
  exact ⟨hts, hsound ⟨s, []⟩ hparse⟩

/-- Three runs are asked for and one is counted, for nothing is left of them behind it: the others are empty. -/
theorem taken_mem_language_runs :
    let rule : Rule := .sequence [.repetition (.many 'a') 3 (some 3), 'b']
    rule.parse? ['a', 'a', 'b', 'c'] = some ⟨['a', 'a', 'b'], ['c']⟩ ∧ ['a', 'a', 'b'] ∈ rule.language ∧
      rule.parseAll? ['b'] = some ['b'] ∧ ['b'] ∈ rule.language := by
  intro rule
  have hparse : rule.parse? ['a', 'a', 'b', 'c'] = some ⟨['a', 'a', 'b'], ['c']⟩ := by decide +kernel
  have hall : rule.parseAll? ['b'] = some ['b'] := by decide +kernel
  obtain ⟨htaken, -⟩ := taken_mem_language rule ['a', 'a', 'b', 'c']
  obtain ⟨-, hwhole⟩ := taken_mem_language rule ['b']
  exact ⟨hparse, htaken _ hparse, hall, (hwhole _ hall).2⟩

end HttpFields.Rule
