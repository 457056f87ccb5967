import HttpFields.Event
import HttpFields.HttpDate.Format

/-!
# `HttpFields.HttpDate.Basic` — the date of a message

A text shaped like a date is accepted even if no calendar has the date, which then is kept as text, and an event tells
of it.
-/

namespace HttpFields

/-- A date as a field gives it. -/
inductive HttpDate where
  /-- An instant of the calendar. -/
  | valid (instant : Instant)
  /-- A text shaped like a date that stands for no instant. -/
  | invalid (text : Text)
  deriving DecidableEq

namespace HttpDate

/-- Whether the date is an instant of the calendar. -/
def isValid : HttpDate → Bool
  | valid _ => true
  | invalid _ => false

/-- The instant of the date, if it is one. -/
def toInstant? : HttpDate → Option Instant
  | valid instant => some instant
  | invalid _ => none

/-- Reads a date. -/
def read (v : Text) (calendar : Calendar) : Reading HttpDate := do
  .require (grammar.accepts v) (.mismatch .date v)
  match instant? v calendar with
  | some instant => return valid instant
  | none => .note (.notCalendarDate v) (invalid v)

/-- The date as text, an instant in the fixed notation. -/
def write (date : HttpDate) (calendar : Calendar) : Text :=
  match date with
  | valid instant => calendar.format fixedPattern instant
  | invalid text => text

end HttpDate

end HttpFields
