import HttpFields.Elements
import HttpFields.Event

/-!
# `HttpFields.Codings` — the codings applied to a representation

A list of tokens in the order in which the codings were applied; the empty text is the empty list.
-/

namespace HttpFields.Codings

open Rule

/-- No text at all, or tokens separated by commas. -/
def grammar : Rule := optional (separated token)

/-- Reads the list of codings. -/
def read (v : Text) : Reading (List Text) := do
  .require (grammar.accepts v) (.mismatch .contentEncoding v)
  return if v = [] then [] else v.elements

end HttpFields.Codings
