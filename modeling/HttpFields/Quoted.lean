import HttpFields.Token

/-!
# `HttpFields.Quoted` — quoted strings

A value that is no token is written between double quotes, in which a backslash makes the next character stand for
itself. Reading is lenient: it takes away the quotes and backslashes that are there and leaves any other text alone,
so it may be applied before a text is known to be well formed.

* `unescape_cons` — a place is unescaped by the rule for an escaped character.
* `unescape_escape` — escaping is undone by unescaping, for any text whatsoever.
* `decode_encode` — reading back what was written between quotes.
-/

namespace HttpFields

/-! ## Grammar -/

namespace CharClass

/-- The characters that stand for themselves between quotes: all but the quote and the backslash. -/
def quotable : CharClass := ofText ['\t', ' ', '!'] ++ span '#' '[' ++ span ']' '~' ++ obsolete

/-- The characters that a backslash may stand before. -/
def escapable : CharClass := blank ++ visible ++ obsolete

end CharClass

namespace Rule

/-- A backslash and the character it stands before. -/
def quotedPair : Rule := .sequence ['\\', CharClass.escapable]

/-- A quoted string. -/
def quotedString : Rule := .sequence ['"', .many (.choice [CharClass.quotable, quotedPair]), '"']

/-- A value that is a token or a quoted string. -/
def wordValue : Rule := .choice [token, quotedString]

end Rule

/-! ## Reading and writing -/

namespace Quoted

/-- What stands between the quotes, if the text both starts and ends with one. A single quote cannot do both. -/
def inside? : Text → Option Text
  | '"' :: s => if s.getLast? = some '"' then some s.dropLast else none
  | _ => none

/-- The text without the backslashes that stand before a character they may escape. -/
def unescape : Text → Text
  | '\\' :: c :: s => if CharClass.escapable.contains c then c :: unescape s else '\\' :: unescape (c :: s)
  | c :: s => c :: unescape s
  | [] => []

/-- The value of a text: that of a quoted string, or the text itself if it is not between quotes. -/
def decode (s : Text) : Text :=
  match inside? s with
  | some inner => unescape inner
  | none => s

/-- The text with a backslash before each quote and each backslash. -/
def escape : Text → Text
  | [] => []
  | c :: s => if c = '"' ∨ c = '\\' then '\\' :: c :: escape s else c :: escape s

/-- The text as a quoted string. -/
def encode (s : Text) : Text := '"' :: (escape s ++ ['"'])

/-- The text as it is if it is a token, and as a quoted string otherwise. -/
def encodeIfNeeded (s : Text) : Text := if s.isToken then s else encode s

/-! ## Escaped characters -/

theorem parse?_quotedPair_of_ne {c : Char} (h : c ≠ '\\') (s : Text) : Rule.quotedPair.parse? (c :: s) = none := by
  rw [Rule.quotedPair, Rule.parse?_sequence_cons, Rule.parse?_terminal_cons, if_neg h]
  rfl

theorem parse?_quotedPair_cons (c : Char) (s : Text) :
    Rule.quotedPair.parse? ('\\' :: c :: s) =
      if CharClass.escapable.contains c then some ⟨['\\', c], s⟩ else none := by
  rw [Rule.quotedPair, Rule.parse?_sequence_cons, Rule.parse?_terminal_cons, if_pos rfl, Option.bind_some,
    Rule.parse?_sequence_cons, CharClass.parse?_rule_cons]
  split <;> rfl

/-- **The rule at each place.** Unescaping takes away the backslash of whatever the rule for an escaped character takes,
    and leaves a character as it is where the rule takes nothing. -/
theorem unescape_cons (c : Char) (s : Text) :
    unescape (c :: s) =
      match Rule.quotedPair.parse? (c :: s) with
      | some pair => pair.taken.drop 1 ++ unescape pair.rest
      | none => c :: unescape s := by
  by_cases hc : c = '\\'
  · subst hc
    cases s with
    | nil => rfl
    | cons d s =>
      rw [parse?_quotedPair_cons, unescape]
      split <;> rfl
  · rw [parse?_quotedPair_of_ne hc, unescape]
    rintro d s' rfl
    exact fun _ => hc rfl

theorem unescape_cons_of_ne {c : Char} {s : Text} (h : c ≠ '\\') : unescape (c :: s) = c :: unescape s := by
  rw [unescape_cons, parse?_quotedPair_of_ne h]

theorem unescape_pair {c : Char} {s : Text} (h : CharClass.escapable.contains c = true) :
    unescape ('\\' :: c :: s) = c :: unescape s := by
  rw [unescape_cons, parse?_quotedPair_cons, if_pos h]
  rfl

/-! ## Reading back -/

@[simp] theorem unescape_escape (s : Text) : unescape (escape s) = s := by
  induction s with
  | nil => rfl
  | cons c s ih =>
    unfold escape
    split
    · rename_i h
      have hc : CharClass.escapable.contains c = true := by rcases h with rfl | rfl <;> decide
      rw [unescape_pair hc, ih]
    · rename_i h
      rw [unescape_cons_of_ne (fun e => h (.inr e)), ih]

theorem inside?_quotes (s : Text) : inside? ('"' :: (s ++ ['"'])) = some s := by
  simp [inside?]

/-- **Quoting is undone.** A quoted string has the value it was written for. -/
@[simp] theorem decode_encode (s : Text) : decode (encode s) = s := by
  simp [decode, encode, inside?_quotes]

end Quoted

end HttpFields
