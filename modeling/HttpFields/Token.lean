import HttpFields.Abnf.CharClass

/-!
# `HttpFields.Token` — character classes, blanks and tokens

The character classes every field is written with, the runs of blanks allowed around delimiters, and the two kinds
of unquoted word: the token and the `token68` of authentication data.

* `isToken_iff` — a token is a non-empty text of token characters.
-/

namespace HttpFields

/-! ## Character classes -/

namespace CharClass

/-- The ASCII letters. -/
def alpha : CharClass := span 'A' 'Z' ++ span 'a' 'z'

/-- The decimal digits. -/
def digit : CharClass := span '0' '9'

/-- The hexadecimal digits, in either case. -/
def hexDigit : CharClass := digit ++ span 'A' 'F' ++ span 'a' 'f'

/-- Space and horizontal tab. -/
def blank : CharClass := ofText [' ', '\t']

/-- The visible ASCII characters. -/
def visible : CharClass := span '!' '~'

/-- The characters above ASCII that fit one octet, kept for the sake of old texts. -/
def obsolete : CharClass := span '\x80' '\xff'

/-- The characters of a token. -/
def tokenChar : CharClass :=
  ofText ['!', '#', '$', '%', '&', '\x27', '*', '+', '-', '.', '^', '_', '\x60', '|', '~'] ++ digit ++ alpha

/-- The characters of a `token68`, its padding aside. -/
def token68Char : CharClass := alpha ++ digit ++ ofText ['-', '.', '_', '~', '+', '/']

/-- The decimal digits of the class are those of the character type. -/
theorem contains_digit {c : Char} : digit.contains c = c.isDigit := by
  rw [Bool.eq_iff_iff, digit, contains_span]
  simp [Char.isDigit, Char.le_def]

/-- The blanks of the class are those that trimming removes. -/
theorem contains_blank {c : Char} : blank.contains c = Text.isBlank c := by
  rw [Bool.eq_iff_iff, blank, contains_ofText]
  simp [Text.isBlank]

end CharClass

/-! ## Blanks and words -/

namespace Rule

/-- Optional blanks, as allowed around most delimiters. -/
def blanks : Rule := .many CharClass.blank

/-- A token. -/
def token : Rule := .many1 CharClass.tokenChar

/-- A `token68`: characters of its class, then padding. Both parts may be empty. -/
def token68 : Rule := .sequence [.many CharClass.token68Char, .many '=']

end Rule

namespace Text

/-- Whether a text is a token. -/
def isToken (s : Text) : Bool := Rule.token.accepts s

/-- **Tokens.** A token is a non-empty text of token characters. -/
theorem isToken_iff {s : Text} : s.isToken = true ↔ s ≠ [] ∧ ∀ c ∈ s, CharClass.tokenChar.contains c = true :=
  CharClass.accepts_many1_rule_iff

end Text

end HttpFields
