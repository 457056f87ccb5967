import HttpFields.Quoted
import HttpFields.Proofs.Token

/-!
# `HttpFields.Proofs.Quoted` — quoted strings without a grammar

A quoted string and the value it stands for, as a relation: between the quotes a character stands for itself, or for
the character that a backslash before it escapes. The relation is what the grammar accepts on the one side and what
decoding computes on the other.

* `Quotes`, `IsQuotedString`, `IsValue` — a text and the value it stands for.
* `accepts_quotedString_iff` — the rule for a quoted string.
* `isValue_of_derives`, `takes_wordValue` — the rule for a value.
* `decode_of_isValue` — decoding gives the value.
* `IsValue.isEscapable`, `isValue_encodeIfNeeded` — the values that have a written form.
-/

namespace HttpFields

/-! ## Values -/

/-- A character that a backslash may stand before: a tab, a printable ASCII character, or one above ASCII that fits an
    octet. -/
def IsEscapable (c : Char) : Prop := c = '\t' ∨ (' ' ≤ c ∧ c ≤ '~') ∨ ('\x80' ≤ c ∧ c ≤ '\xff')

/-- A character that stands for itself between quotes. -/
def IsQuotable (c : Char) : Prop := IsEscapable c ∧ c ≠ '"' ∧ c ≠ '\\'

/-- The text between quotes stands for the value. -/
inductive Quotes : Text → Text → Prop where
  | nil : Quotes [] []
  | plain {c : Char} {inner value : Text} : IsQuotable c → Quotes inner value → Quotes (c :: inner) (c :: value)
  | pair {c : Char} {inner value : Text} :
      IsEscapable c → Quotes inner value → Quotes ('\\' :: c :: inner) (c :: value)

/-- A quoted string and the value it stands for. -/
def IsQuotedString (q value : Text) : Prop := ∃ inner, Quotes inner value ∧ q = '"' :: (inner ++ ['"'])

/-- A value as it is written: a token, which stands for itself, or a quoted string. -/
def IsValue (v value : Text) : Prop := (IsToken v ∧ value = v) ∨ IsQuotedString v value

theorem contains_escapable {c : Char} : CharClass.escapable.contains c = true ↔ IsEscapable c := by
  rw [CharClass.escapable, CharClass.contains_append, CharClass.contains_append, Bool.or_eq_true, Bool.or_eq_true,
    CharClass.contains_blank, isBlank_iff, CharClass.visible, CharClass.obsolete, CharClass.contains_span,
    CharClass.contains_span, IsEscapable]
  simp only [Char.le_def, UInt32.le_iff_toNat_le, Char.ext_iff, ← UInt32.toNat_inj]
  simp
  omega

theorem contains_quotable {c : Char} : CharClass.quotable.contains c = true ↔ IsQuotable c := by
  rw [CharClass.quotable, CharClass.contains_append, CharClass.contains_append, CharClass.contains_append,
    Bool.or_eq_true, Bool.or_eq_true, Bool.or_eq_true, CharClass.contains_ofText, CharClass.obsolete,
    CharClass.contains_span, CharClass.contains_span, CharClass.contains_span, IsQuotable, IsEscapable]
  have hquote : c = '"' ↔ c.toNat = 34 := Char.toNat_inj.symm
  have hslash : c = '\\' ↔ c.toNat = 92 := Char.toNat_inj.symm
  rw [ne_eq, ne_eq, hquote, hslash]
  simp only [Char.le_def, UInt32.le_iff_toNat_le, Char.ext_iff, ← UInt32.toNat_inj, List.mem_cons]
  simp
  omega

/-- The characters of a token are printable. -/
theorem IsTokenChar.isEscapable {c : Char} (h : IsTokenChar c) : IsEscapable c := by
  have hspans : ∀ p ∈ CharClass.tokenChar.spans, ' ' ≤ p.1 ∧ p.2 ≤ '~' := by decide
  exact Or.inr (Or.inl (CharClass.between_of_contains hspans (contains_tokenChar.mpr h)))

theorem Quotes.isEscapable {inner value : Text} (h : Quotes inner value) : ∀ c ∈ value, IsEscapable c := by
  induction h with
  | nil => exact List.forall_mem_nil _
  | plain hc _ ih => exact List.forall_mem_cons.mpr ⟨hc.1, ih⟩
  | pair hc _ ih => exact List.forall_mem_cons.mpr ⟨hc, ih⟩

/-- A value that has a written form is made of characters that a backslash may stand before, those of a token
    included. -/
theorem IsValue.isEscapable {v value : Text} (h : IsValue v value) : ∀ c ∈ value, IsEscapable c := by
  rcases h with ⟨⟨-, hchars⟩, rfl⟩ | ⟨inner, hinner, -⟩
  · intro c hc
    exact (hchars c hc).isEscapable
  · exact hinner.isEscapable

/-- No token starts with a quote. -/
theorem not_isToken_quote_cons (s : Text) : ¬ IsToken ('"' :: s) := by
  rintro ⟨-, hchars⟩
  exact absurd (hchars '"' List.mem_cons_self) (by decide)

theorem IsQuotedString.not_isToken {q value : Text} (h : IsQuotedString q value) : ¬ IsToken q := by
  obtain ⟨inner, -, rfl⟩ := h
  exact not_isToken_quote_cons _

/-- A value does not start with a blank. -/
theorem IsValue.head {v value : Text} (h : IsValue v value) (rest : Text) :
    ∀ c ∈ (v ++ rest).head?, Text.isBlank c = false := by
  rcases h with ⟨htoken, -⟩ | ⟨inner, -, rfl⟩
  · obtain ⟨d, hd, hhead⟩ := htoken.head rest
    intro c hc
    rw [hhead c hc]
    exact hd.isBlank_eq_false
  · rintro c ⟨⟩
    rfl

namespace Rule

/-! ## The rules -/

theorem oneOf_escapable : OneOf IsEscapable CharClass.escapable := (oneOf_class _).congr contains_escapable

theorem oneOf_quotable : OneOf IsQuotable CharClass.quotable := (oneOf_class _).congr contains_quotable

theorem quotes_of_derives {inner : Text} (h : Derives (many (.choice [CharClass.quotable, quotedPair])) inner) :
    ∃ value, Quotes inner value := by
  refine h.many_induction (P := fun inner => ∃ value, Quotes inner value) ⟨[], .nil⟩ ?_
  rintro item inner hitem ⟨value, hvalue⟩
  rcases derives_choice_pair_iff.mp hitem with hplain | hpair
  · obtain ⟨c, hc, rfl⟩ := (oneOf_quotable.derives_iff item).mp hplain
    exact ⟨c :: value, .plain hc hvalue⟩
  · obtain ⟨u, rfl, hu⟩ := derives_terminal_cons_iff.mp hpair
    obtain ⟨c, hc, rfl⟩ := (oneOf_escapable.derives_iff u).mp (derives_sequence_singleton_iff.mp hu)
    exact ⟨c :: value, .pair hc hvalue⟩

theorem takes_quotes {inner value : Text} (h : Quotes inner value) (rest : Text) :
    (many (.choice [CharClass.quotable, quotedPair])).Takes inner ('"' :: rest) := by
  induction h with
  | nil => exact .repetition_nil (.inr rfl)
  | @plain c inner value hc _ ih =>
    refine Takes.repetition_cons (x := [c]) (List.cons_ne_nil c []) nofun (.head ?_) ih
    exact oneOf_quotable.takes hc _
  | @pair c inner value hc _ ih =>
    refine Takes.repetition_cons (x := ['\\', c]) (List.cons_ne_nil _ _) nofun (.tail ?_ (.head ?_)) ih
    · -- a backslash never stands for itself
      apply oneOf_quotable.parse?_eq_none
      rintro d ⟨⟩ hslash
      exact hslash.2.2 rfl
    · exact .cons (.terminal _ _) (oneOf_escapable.takes hc _).singleton

theorem isQuotedString_of_derives {q : Text} (h : Derives quotedString q) : ∃ value, IsQuotedString q value := by
  obtain ⟨_, u, rfl, hopen, hu⟩ := derives_sequence_cons_iff.mp h
  obtain ⟨inner, _, rfl, hinner, hclose⟩ := derives_sequence_cons_iff.mp hu
  obtain ⟨value, hvalue⟩ := quotes_of_derives hinner
  rw [derives_terminal_iff.mp hopen, derives_terminal_iff.mp (derives_sequence_singleton_iff.mp hclose)]
  exact ⟨value, inner, hvalue, rfl⟩

theorem takes_quotedString {q value : Text} (h : IsQuotedString q value) (rest : Text) :
    quotedString.Takes q rest := by
  obtain ⟨inner, hinner, rfl⟩ := h
  exact .cons (.terminal '"' _) (.cons (takes_quotes hinner rest) (Takes.terminal '"' rest).singleton)

/-- **Quoted strings.** The texts that the rule for quoted strings matches in full. -/
theorem accepts_quotedString_iff {q : Text} : quotedString.accepts q = true ↔ ∃ value, IsQuotedString q value := by
  constructor
  · intro h
    exact isQuotedString_of_derives (derives_of_accepts h)
  · rintro ⟨value, h⟩
    exact accepts_iff_takes.mpr (takes_quotedString h [])

theorem isValue_of_derives {v : Text} (h : Derives wordValue v) : ∃ value, IsValue v value := by
  rcases derives_choice_pair_iff.mp h with htoken | hquoted
  · exact ⟨v, .inl ⟨derives_token_iff.mp htoken, rfl⟩⟩
  · obtain ⟨value, hvalue⟩ := isQuotedString_of_derives hquoted
    exact ⟨value, .inr hvalue⟩

/-- The rule for a value takes a value, if the text behind it does not go on with a token. -/
theorem takes_wordValue {v value rest : Text} (h : IsValue v value) (hrest : ∀ c ∈ rest.head?, ¬ IsTokenChar c) :
    wordValue.Takes v rest := by
  rcases h with ⟨htoken, -⟩ | hquoted
  · exact .head (takes_token htoken hrest)
  · refine .tail ?_ (.head (takes_quotedString hquoted rest))
    -- no token starts with a quote
    obtain ⟨inner, -, rfl⟩ := hquoted
    apply parse?_token_eq_none
    rintro c ⟨⟩
    decide

end Rule

/-! ## Decoding -/

namespace Quoted

theorem unescape_of_quotes {inner value : Text} (h : Quotes inner value) : unescape inner = value := by
  induction h with
  | nil => rfl
  | plain hc _ ih => rw [unescape_cons_of_ne hc.2.2, ih]
  | pair hc _ ih => rw [unescape_pair (contains_escapable.mpr hc), ih]

/-- **Decoding.** What a value is decoded to is the value it stands for. -/
theorem decode_of_isValue {v value : Text} (h : IsValue v value) : decode v = value := by
  rcases h with ⟨htoken, rfl⟩ | ⟨inner, hinner, rfl⟩
  · have hinside : inside? value = none := by
      unfold inside?
      split
      · exact absurd htoken (not_isToken_quote_cons _)
      · rfl
    rw [decode, hinside]
  · rw [decode, inside?_quotes]
    exact unescape_of_quotes hinner

/-! ## Writing -/

theorem quotes_escape {value : Text} (h : ∀ c ∈ value, IsEscapable c) : Quotes (escape value) value := by
  induction value with
  | nil => exact .nil
  | cons c value ih =>
    obtain ⟨hc, hvalue⟩ := List.forall_mem_cons.mp h
    rw [escape]
    split
    · exact .pair hc (ih hvalue)
    · rename_i hplain
      obtain ⟨hquote, hslash⟩ := not_or.mp hplain
      exact .plain ⟨hc, hquote, hslash⟩ (ih hvalue)

/-- **Writing.** A value of characters that a backslash may stand before has a written form, as a token or between
    quotes. -/
theorem isValue_encodeIfNeeded {value : Text} (h : ∀ c ∈ value, IsEscapable c) :
    IsValue (encodeIfNeeded value) value := by
  rw [encodeIfNeeded]
  split
  · rename_i htoken
    exact Or.inl ⟨isToken_iff.mp htoken, rfl⟩
  · exact Or.inr ⟨escape value, quotes_escape h, rfl⟩

end Quoted

end HttpFields
