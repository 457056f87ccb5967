import HttpFields.Token

/-!
# `HttpFields.Elements` — comma-separated lists

Several fields are lists whose elements are separated by a comma with optional blanks around it.

* `Rule.separator` — the separator in a grammar; `Rule.separated` — one element or more.
* `Text.elements` — the elements of a list, without the blanks around them.
-/

namespace HttpFields

namespace Rule

/-- The given delimiter with optional blanks on both sides. -/
def separator (delimiter : Char) : Rule := .sequence [blanks, delimiter, blanks]

/-- At least one element, with commas between them. -/
def separated (element : Rule) : Rule :=
  .sequence [element, .many (.sequence [separator ',', element])]

end Rule

namespace Text

/-- The elements of a list: what stands between its commas, without the blanks around it. -/
def elements (s : Text) : List Text := (s.splitOn ',').map trimBlanks

end Text

end HttpFields
