import HttpFields.Proofs.Quoted

/-!
# `HttpFields.Proofs.Quoted.RoundTrip` — a value that was written is read back

The writer and the reader of a value do not mirror each other. The writer puts a backslash before quotes and backslashes
only and lets every other character pass, a control character or one beyond an octet included; the reader takes a
backslash away wherever the character behind it may be escaped. They agree all the same, on every text, since a backslash
that was written as one has another in front of it.

The grammar draws a line that the two do not see. What is written for a value is a token or a quoted string only if a
backslash may stand before each of its characters.

* `decode_encodeIfNeeded` — what is written is read back.
* `accepts_token_encodeIfNeeded_iff`, `accepts_quotedString_encodeIfNeeded_iff` — what is written as a token, and what as
  a quoted string.
* `decode_encode_value` — both together.
-/

namespace HttpFields

namespace Quoted

open Rule

theorem encodeIfNeeded_of_isToken {v : Text} (h : IsToken v) : encodeIfNeeded v = v := by
  unfold encodeIfNeeded
  rw [if_pos (isToken_iff.mpr h)]

theorem encodeIfNeeded_of_not_isToken {v : Text} (h : ¬ IsToken v) : encodeIfNeeded v = encode v := by
  unfold encodeIfNeeded
  rw [if_neg fun htoken => h (isToken_iff.mp htoken)]

/-- **What is written is read back**, be it a token or not. -/
@[simp] theorem decode_encodeIfNeeded (v : Text) : decode (encodeIfNeeded v) = v := by
  by_cases h : IsToken v
  · rw [encodeIfNeeded_of_isToken h]
    exact decode_of_isValue (Or.inl ⟨h, rfl⟩)
  · rw [encodeIfNeeded_of_not_isToken h, decode_encode]

/-! ## What the grammar says of it -/

/-- A token is written for tokens only. -/
theorem accepts_token_encodeIfNeeded_iff {v : Text} : token.accepts (encodeIfNeeded v) = true ↔ IsToken v := by
  show (encodeIfNeeded v).isToken = true ↔ _
  rw [isToken_iff]
  by_cases h : IsToken v
  · rw [encodeIfNeeded_of_isToken h]
  · rw [encodeIfNeeded_of_not_isToken h]
    exact iff_of_false (not_isToken_quote_cons _) h

/-- A quoted string is written for the other values, if a backslash may stand before each of their characters. -/
theorem accepts_quotedString_encodeIfNeeded_iff {v : Text} :
    quotedString.accepts (encodeIfNeeded v) = true ↔ ¬ IsToken v ∧ ∀ c ∈ v, IsEscapable c := by
  rw [accepts_quotedString_iff]
  constructor
  · rintro ⟨value, hvalue⟩
    -- a quoted string stands for the value that is read off it, and that is the one it was written for
    have hread : value = v := by
      rw [← decode_of_isValue (Or.inr hvalue), decode_encodeIfNeeded]
    subst hread
    refine ⟨?_, IsValue.isEscapable (Or.inr hvalue)⟩
    intro htoken
    rw [encodeIfNeeded_of_isToken htoken] at hvalue
    exact hvalue.not_isToken htoken
  · rintro ⟨htoken, hv⟩
    rw [encodeIfNeeded_of_not_isToken htoken]
    exact ⟨v, escape v, quotes_escape hv, rfl⟩

end Quoted

/-- **Values are read back.** Any text whatsoever is read back from what is written for it. What is written is a token or
    a quoted string exactly if each character of the text is a tab, a printable ASCII character, or one above ASCII that
    fits an octet. -/
theorem decode_encode_value (v : Text) :
    Quoted.decode (Quoted.encodeIfNeeded v) = v ∧
      ((Rule.token.accepts (Quoted.encodeIfNeeded v) = true ∨
          Rule.quotedString.accepts (Quoted.encodeIfNeeded v) = true) ↔
        ∀ c ∈ v, c = '\t' ∨ (' ' ≤ c ∧ c ≤ '~') ∨ ('\x80' ≤ c ∧ c ≤ '\xff')) := by
  refine ⟨Quoted.decode_encodeIfNeeded v, ?_⟩
  rw [Quoted.accepts_token_encodeIfNeeded_iff, Quoted.accepts_quotedString_encodeIfNeeded_iff]
  constructor
  · rintro (htoken | ⟨-, hv⟩)
    · exact fun c hc => (htoken.2 c hc).isEscapable
    · exact hv
  · intro hv
    by_cases htoken : IsToken v
    · exact Or.inl htoken
    · exact Or.inr ⟨htoken, hv⟩

/-- A value that has quotes of its own and ends in a backslash. -/
example : Quoted.encodeIfNeeded ['"', 'a', '"', '\\'] = ['"', '\\', '"', 'a', '\\', '"', '\\', '\\', '"'] := by decide

end HttpFields
