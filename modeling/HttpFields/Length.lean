import HttpFields.Decimal
import HttpFields.Event
import HttpFields.Token

/-!
# `HttpFields.Length` — the length of a message body

A decimal number that fits 64 bits, with any number of leading zeros.
-/

namespace HttpFields.Length

open Rule

/-- One digit or more. -/
def grammar : Rule := many1 CharClass.digit

/-- Reads the length. -/
def read (v : Text) : Reading UInt64 := do
  .require (grammar.accepts v) (.mismatch .contentLength v)
  .expect (Decimal.toUInt64? v) (.lengthOutOfRange v)

end HttpFields.Length
