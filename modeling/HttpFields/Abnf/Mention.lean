import HttpFields.Abnf.CharClass

/-!
# `HttpFields.Abnf.Mention` — the characters a rule speaks of

A rule mentions the characters of its terminals, at any depth. A character that it does not mention can be no part of a
match.

* `mentions_sequence_iff`, `mentions_choice_iff` — a compound rule mentions what its rules mention.
* `mentions_class_iff` — the rule of a character class mentions the characters of the class.
-/

namespace HttpFields.Rule

mutual

/-- Whether a character is that of a terminal of the rule. -/
def Mentions (c : Char) : Rule → Prop
  | .terminal value => c = value
  | .sequence rules => MentionsAny c rules
  | .choice rules => MentionsAny c rules
  | .repetition rule _ _ => rule.Mentions c

/-- Whether a character is that of a terminal of one of the rules. -/
def MentionsAny (c : Char) : List Rule → Prop
  | [] => False
  | rule :: rules => rule.Mentions c ∨ MentionsAny c rules

end

mutual

/-- Whether a rule mentions a character is decided by looking at its terminals. -/
def decideMentions (c : Char) : (rule : Rule) → Decidable (rule.Mentions c)
  | .terminal value => inferInstanceAs (Decidable (c = value))
  | .sequence rules => decideMentionsAny c rules
  | .choice rules => decideMentionsAny c rules
  | .repetition rule _ _ => decideMentions c rule

/-- Whether one of the rules mentions a character is decided rule by rule. -/
def decideMentionsAny (c : Char) : (rules : List Rule) → Decidable (MentionsAny c rules)
  | [] => .isFalse id
  | rule :: rules =>
    match decideMentions c rule, decideMentionsAny c rules with
    | .isTrue h, _ => .isTrue (.inl h)
    | _, .isTrue h => .isTrue (.inr h)
    | .isFalse h, .isFalse h' => .isFalse fun e => e.elim h h'

end

instance (c : Char) (rule : Rule) : Decidable (rule.Mentions c) := decideMentions c rule

theorem mentionsAny_iff {c : Char} {rules : List Rule} : MentionsAny c rules ↔ ∃ r ∈ rules, r.Mentions c := by
  induction rules with
  | nil => simp [MentionsAny]
  | cons r rules ih => simp [MentionsAny, ih]

@[simp] theorem mentions_terminal_iff {c value : Char} : (terminal value).Mentions c ↔ c = value := by
  simp [Mentions]

/-- A sequence mentions what its rules mention. -/
theorem mentions_sequence_iff {c : Char} {rules : List Rule} :
    (sequence rules).Mentions c ↔ ∃ r ∈ rules, r.Mentions c := by
  rw [Mentions, mentionsAny_iff]

/-- A choice mentions what its rules mention. -/
theorem mentions_choice_iff {c : Char} {rules : List Rule} :
    (choice rules).Mentions c ↔ ∃ r ∈ rules, r.Mentions c := by
  rw [Mentions, mentionsAny_iff]

/-- A repetition mentions what its rule mentions, even if it allows for no match at all. -/
@[simp] theorem mentions_repetition_iff {c : Char} {r : Rule} {min : Nat} {max : Option Nat} :
    (repetition r min max).Mentions c ↔ r.Mentions c := by
  simp [Mentions]

/-- A span of characters mentions each of them. -/
theorem mentions_between_iff {c low high : Char} : (between low high).Mentions c ↔ low ≤ c ∧ c ≤ high := by
  rw [between, mentions_choice_iff]
  constructor
  · rintro ⟨r, hr, h⟩
    obtain ⟨v, hv, rfl⟩ := List.mem_map.1 hr
    rw [mentions_terminal_iff.1 h]
    exact mem_charactersBetween.1 hv
  · intro h
    exact ⟨.terminal c, List.mem_map_of_mem (mem_charactersBetween.2 h), mentions_terminal_iff.2 rfl⟩

/-- The rule of a character class mentions the characters of the class. -/
theorem mentions_class_iff {c : Char} {cls : CharClass} : cls.rule.Mentions c ↔ cls.contains c = true := by
  rw [CharClass.rule, mentions_choice_iff]
  constructor
  · rintro ⟨r, hr, h⟩
    obtain ⟨p, hp, rfl⟩ := List.mem_map.1 hr
    obtain ⟨h₁, h₂⟩ := mentions_between_iff.1 h
    exact List.any_eq_true.2 ⟨p, hp, by simp [h₁, h₂]⟩
  · intro h
    obtain ⟨p, hp, h⟩ := List.any_eq_true.1 h
    rw [Bool.and_eq_true, decide_eq_true_eq, decide_eq_true_eq] at h
    exact ⟨.between p.1 p.2, List.mem_map.2 ⟨p, hp, rfl⟩, mentions_between_iff.2 h⟩

end HttpFields.Rule
