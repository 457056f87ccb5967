import HttpFields.Token
import HttpFields.Proofs.Abnf.OneOf

/-!
# `HttpFields.Proofs.Token` — tokens and blanks without a grammar

The character classes that most fields share, as tests that name no class, and the words and blanks made of them. A
rule for a run of characters takes the whole run, so each lemma on what a rule takes asks for one thing only: that the
text behind does not go on with such a character.

* `IsToken`, `IsBlanks` — tokens and optional blanks.
* `derives_token_iff`, `takes_token`, `derives_blanks_iff`, `takes_blanks` — the rules for them.
-/

namespace HttpFields

namespace CharClass

/-- A class whose spans lie between two characters has no characters but between these. -/
theorem between_of_contains {cls : CharClass} {low high c : Char}
    (hspans : ∀ p ∈ cls.spans, low ≤ p.1 ∧ p.2 ≤ high) (hc : cls.contains c = true) : low ≤ c ∧ c ≤ high := by
  obtain ⟨p, hp, hspan⟩ := List.any_eq_true.mp hc
  rw [Bool.and_eq_true, decide_eq_true_eq, decide_eq_true_eq] at hspan
  obtain ⟨hlow, hhigh⟩ := hspans p hp
  exact ⟨Char.le_trans hlow hspan.1, Char.le_trans hspan.2 hhigh⟩

theorem contains_alpha {c : Char} : alpha.contains c = c.isAlpha := by
  have hupper : c.isUpper = true ↔ 'A' ≤ c ∧ c ≤ 'Z' := decide_eq_true_iff
  have hlower : c.isLower = true ↔ 'a' ≤ c ∧ c ≤ 'z' :=
    Bool.and_eq_true_iff.trans (and_congr decide_eq_true_iff decide_eq_true_iff)
  have halpha : c.isAlpha = true ↔ c.isUpper = true ∨ c.isLower = true := Bool.or_eq_true_iff
  rw [Bool.eq_iff_iff, alpha, contains_append, Bool.or_eq_true, contains_span, contains_span, halpha, hupper, hlower]

end CharClass

theorem Rule.oneOf_digit : OneOf (fun c => c.isDigit = true) CharClass.digit :=
  (oneOf_class _).congr fun {c} => by rw [CharClass.contains_digit]

/-! ## Tokens -/

/-- A character of a token. -/
def IsTokenChar (c : Char) : Prop :=
  c.isAlphanum = true ∨ c ∈ ['!', '#', '$', '%', '&', '\x27', '*', '+', '-', '.', '^', '_', '\x60', '|', '~']

/-- A token: a text of such characters that is not empty. -/
def IsToken (t : Text) : Prop := t ≠ [] ∧ ∀ c ∈ t, IsTokenChar c

theorem contains_tokenChar {c : Char} : CharClass.tokenChar.contains c = true ↔ IsTokenChar c := by
  rw [CharClass.tokenChar, CharClass.contains_append, CharClass.contains_append, CharClass.contains_alpha,
    CharClass.contains_digit, Bool.or_eq_true, Bool.or_eq_true, CharClass.contains_ofText, IsTokenChar,
    Char.isAlphanum, Bool.or_eq_true, or_assoc, or_comm, or_comm (a := c.isDigit = true)]

theorem isToken_iff {t : Text} : t.isToken = true ↔ IsToken t := by
  rw [Text.isToken_iff, IsToken]
  simp only [contains_tokenChar]

instance (c : Char) : Decidable (IsTokenChar c) := decidable_of_iff _ contains_tokenChar

instance (t : Text) : Decidable (IsToken t) := decidable_of_iff _ isToken_iff

/-- A blank is a space or a tab. -/
def IsBlanks (w : Text) : Prop := ∀ c ∈ w, c = ' ' ∨ c = '\t'

theorem isBlank_iff {c : Char} : Text.isBlank c = true ↔ c = ' ' ∨ c = '\t' := by
  rw [Text.isBlank, Bool.or_eq_true, decide_eq_true_eq, decide_eq_true_eq]

/-- No token character is a blank. -/
theorem IsTokenChar.isBlank_eq_false {c : Char} (h : IsTokenChar c) : Text.isBlank c = false := by
  rw [Bool.eq_false_iff]
  intro hblank
  rcases isBlank_iff.mp hblank with rfl | rfl
  · exact absurd h (by decide)
  · exact absurd h (by decide)

/-- A blank is no token character, and neither is a delimiter that is none. -/
theorem not_isTokenChar_of_isBlank {c d : Char} (hd : ¬ IsTokenChar d) (h : Text.isBlank c = true ∨ c = d) :
    ¬ IsTokenChar c := by
  intro hc
  rcases h with h | rfl
  · rw [hc.isBlank_eq_false] at h
    cases h
  · exact hd hc

/-- Every text is blanks and then a text that starts with none. -/
theorem exists_blanks_append (t : Text) :
    ∃ b u, IsBlanks b ∧ (∀ c ∈ u.head?, Text.isBlank c = false) ∧ t = b ++ u := by
  induction t with
  | nil => exact ⟨[], [], List.forall_mem_nil _, nofun, rfl⟩
  | cons c t ih =>
    by_cases hc : Text.isBlank c = true
    · obtain ⟨b, u, hb, hu, rfl⟩ := ih
      exact ⟨c :: b, u, List.forall_mem_cons.mpr ⟨isBlank_iff.mp hc, hb⟩, hu, rfl⟩
    · refine ⟨[], c :: t, List.forall_mem_nil _, ?_, rfl⟩
      rintro d ⟨⟩
      exact Bool.eq_false_iff.mpr hc

theorem IsToken.head {t : Text} (h : IsToken t) (rest : Text) : ∃ c, IsTokenChar c ∧ ∀ d ∈ (t ++ rest).head?, d = c := by
  obtain ⟨hne, hchars⟩ := h
  cases t with
  | nil => exact absurd rfl hne
  | cons c t =>
    refine ⟨c, hchars c List.mem_cons_self, ?_⟩
    rintro d ⟨⟩
    rfl

namespace Rule

theorem oneOf_tokenChar : OneOf IsTokenChar CharClass.tokenChar := (oneOf_class _).congr contains_tokenChar

theorem derives_token_iff {t : Text} : Derives token t ↔ IsToken t := oneOf_tokenChar.derives_many1_iff

theorem takes_token {t rest : Text} (ht : IsToken t) (hrest : ∀ c ∈ rest.head?, ¬ IsTokenChar c) :
    token.Takes t rest :=
  oneOf_tokenChar.takes_many1 ht.1 ht.2 hrest

/-- A token is taken in front of a delimiter. -/
theorem takes_token_cons {t : Text} {d : Char} (ht : IsToken t) (hd : ¬ IsTokenChar d) (rest : Text) :
    token.Takes t (d :: rest) :=
  takes_token ht (forall_head?_cons.mpr hd)

theorem parse?_token_eq_none {s : Text} (h : ∀ c ∈ s.head?, ¬ IsTokenChar c) : token.parse? s = none :=
  oneOf_tokenChar.parse?_many1_eq_none h

/-! ## Blanks -/

theorem oneOf_blank : OneOf (fun c => c = ' ' ∨ c = '\t') CharClass.blank :=
  (oneOf_class _).congr fun {c} => by rw [CharClass.contains_blank, isBlank_iff]

theorem derives_blanks_iff {w : Text} : Derives blanks w ↔ IsBlanks w := oneOf_blank.derives_many_iff

theorem takes_blanks {w rest : Text} (hw : IsBlanks w) (hrest : ∀ c ∈ rest.head?, Text.isBlank c = false) :
    blanks.Takes w rest := by
  apply oneOf_blank.takes_many hw
  intro c hc hblank
  rw [← isBlank_iff, hrest c hc] at hblank
  cases hblank

end Rule

end HttpFields
