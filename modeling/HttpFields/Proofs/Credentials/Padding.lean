import HttpFields.Proofs.Credentials.RoundTrip

/-!
# `HttpFields.Proofs.Credentials.Padding` — words that are padding alone

A `token68` is a run of at least one character and then padding. The rule for it lets the run be empty, so whoever applies
the rule has to see to it that the run is not. Reading credentials sees to less: what follows the spaces must not be empty.
That excludes the empty word and no other, and a word made of padding alone is read like any.

* `IsPadding`, `IsPaddedRun` — padding, and words with a run in front of it.
* `isToken68_iff` — what the rule takes is one or the other.
* `parse?_authorization_token68_iff` — which words are read.
* `parse?_authorization_padding` — padding that is read as a word.
-/

namespace HttpFields

namespace Credentials

/-- Padding, and nothing else. -/
def IsPadding (w : Text) : Prop := ∀ c ∈ w, c = '='

/-- A run of at least one character of a `token68`, and padding. -/
def IsPaddedRun (w : Text) : Prop :=
  ∃ run padding : Text, run ≠ [] ∧ (∀ c ∈ run, IsToken68Char c) ∧ IsPadding padding ∧ w = run ++ padding

theorem IsPaddedRun.ne_nil {w : Text} (h : IsPaddedRun w) : w ≠ [] := by
  obtain ⟨run, padding, hne, -, -, rfl⟩ := h
  exact List.append_ne_nil_of_left_ne_nil hne padding

/-- The first character of the run is no padding. -/
theorem IsPaddedRun.not_isPadding {w : Text} (h : IsPaddedRun w) : ¬ IsPadding w := by
  obtain ⟨run, padding, hne, hrun, -, rfl⟩ := h
  intro hpadding
  obtain ⟨c, hc⟩ := List.exists_mem_of_ne_nil run hne
  have hchar : IsToken68Char c := hrun c hc
  rw [hpadding c (List.mem_append_left padding hc)] at hchar
  simp [IsToken68Char] at hchar

/-- **Two kinds of words.** What the rule for a `token68` takes has a run, or is padding alone. -/
theorem isToken68_iff {w : Text} : IsToken68 w ↔ IsPaddedRun w ∨ IsPadding w := by
  constructor
  · rintro ⟨run, padding, hrun, hpadding, rfl⟩
    by_cases hne : run = []
    · subst hne
      exact Or.inr hpadding
    · exact Or.inl ⟨run, padding, hne, hrun, hpadding, rfl⟩
  · rintro (⟨run, padding, -, hrun, hpadding, rfl⟩ | hpadding)
    · exact ⟨run, padding, hrun, hpadding, rfl⟩
    · exact ⟨[], w, List.forall_mem_nil _, hpadding, rfl⟩

theorem isCredentials_token68_iff {v scheme word : Text} :
    IsCredentials v ⟨scheme, some (.token68 word)⟩ ↔
      ∃ spaces, IsToken scheme ∧ IsSpaces spaces ∧ spaces ≠ [] ∧ v = scheme ++ (spaces ++ word) ∧
        IsToken68 word ∧ word ≠ [] := by
  constructor
  · intro h
    cases h with
    | @token68 _ spaces _ hscheme hspaces hne hword hempty =>
      exact ⟨spaces, hscheme, hspaces, hne, rfl, hword, hempty⟩
  · rintro ⟨spaces, hscheme, hspaces, hne, rfl, hword, hempty⟩
    exact .token68 hscheme hspaces hne hword hempty

end Credentials

open Credentials

/-- **Which words are read.** A text is read as a scheme and a `token68` exactly when it is the scheme, spaces and a word
    that has a run in front of its padding or is padding alone and not empty. No word is both, so the words without a run
    that are read are those, behind any scheme and any number of spaces. -/
theorem parse?_authorization_token68_iff (v scheme word : Text) :
    (Field.authorization.parse? v = some (⟨scheme, some (.token68 word)⟩ : Credentials) ↔
        ∃ spaces, IsToken scheme ∧ IsSpaces spaces ∧ spaces ≠ [] ∧ v = scheme ++ (spaces ++ word) ∧
          (IsPaddedRun word ∨ IsPadding word ∧ word ≠ [])) ∧
      ¬ (IsPaddedRun word ∧ IsPadding word) := by
  have hread : Field.authorization.parse? v = some (⟨scheme, some (.token68 word)⟩ : Credentials) ↔
      IsCredentials v ⟨scheme, some (.token68 word)⟩ := read_eq_some_iff
  have hword : IsToken68 word ∧ word ≠ [] ↔ IsPaddedRun word ∨ IsPadding word ∧ word ≠ [] := by
    rw [isToken68_iff, or_and_right, and_iff_left_of_imp IsPaddedRun.ne_nil]
  constructor
  · rw [hread, isCredentials_token68_iff, hword]
  · rintro ⟨hrun, hpadding⟩
    exact hrun.not_isPadding hpadding

/-- Padding that follows a scheme is read as a `token68`, though it has no run. -/
theorem parse?_authorization_padding :
    Field.authorization.parse? "scheme =".toList = some (⟨"scheme".toList, some (.token68 ['='])⟩ : Credentials) ∧
      ¬ IsPaddedRun ['='] := by
  have hpadding : IsPadding ['='] := by simp [IsPadding]
  refine ⟨by decide +kernel, ?_⟩
  intro hrun
  exact hrun.not_isPadding hpadding

end HttpFields
