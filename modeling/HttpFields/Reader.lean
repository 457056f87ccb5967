import HttpFields.Codings
import HttpFields.Credentials
import HttpFields.Host.Basic
import HttpFields.HttpDate.Basic
import HttpFields.Length
import HttpFields.MediaType
import HttpFields.Ranges

/-!
# `HttpFields.Reader` — reading any field, with a limit on its length

Each field has its own type of values, its grammar and its reading. A `Reader` puts one front end before them all: it
refuses values that are too long before any grammar sees them, and gives every refusal as an `Error`. Dates are those of
the Gregorian calendar, unless another calendar is given.
-/

namespace HttpFields

/-! ## The fields together -/

namespace Field

/-- The values of a field. -/
abbrev Value : Field → Type
  | .host => Host
  | .date => HttpDate
  | .range => Ranges
  | .authorization => Credentials
  | .contentType => MediaType
  | .contentEncoding => List Text
  | .contentLength => UInt64

instance : (field : Field) → DecidableEq field.Value
  | .host => inferInstanceAs (DecidableEq Host)
  | .date => inferInstanceAs (DecidableEq HttpDate)
  | .range => inferInstanceAs (DecidableEq Ranges)
  | .authorization => inferInstanceAs (DecidableEq Credentials)
  | .contentType => inferInstanceAs (DecidableEq MediaType)
  | .contentEncoding => inferInstanceAs (DecidableEq (List Text))
  | .contentLength => inferInstanceAs (DecidableEq UInt64)

/-- The grammar of a field. -/
def grammar : Field → Rule
  | .host => Host.grammar
  | .date => HttpDate.grammar
  | .range => Ranges.grammar
  | .authorization => Credentials.grammar
  | .contentType => MediaType.grammar
  | .contentEncoding => Codings.grammar
  | .contentLength => Length.grammar

/-- Reads a value of a field. -/
def read (field : Field) (v : Text) (calendar : Calendar := .gregorian) : Reading field.Value :=
  match field with
  | .host => Host.read v
  | .date => HttpDate.read v calendar
  | .range => Ranges.read v
  | .authorization => Credentials.read v
  | .contentType => MediaType.read v
  | .contentEncoding => Codings.read v
  | .contentLength => Length.read v

/-- The value of a field that a text stands for. -/
def parse? (field : Field) (v : Text) (calendar : Calendar := .gregorian) : Option field.Value :=
  (field.read v calendar).value

/-- The text of a value. Lists of codings and lengths have none of their own. -/
def write? (field : Field) (value : field.Value) (calendar : Calendar := .gregorian) : Option Text :=
  match field, value with
  | .host, value => some (Host.write value)
  | .date, value => some (HttpDate.write value calendar)
  | .range, value => some (Ranges.write value)
  | .authorization, value => some (Credentials.write value)
  | .contentType, value => some (MediaType.write value)
  | .contentEncoding, _ => none
  | .contentLength, _ => none

end Field

/-! ## Errors -/

/-- Why a reader gives no value. -/
inductive Error where
  /-- The text is no value of the field. -/
  | invalid (field : Field) (value : Text)
  /-- The text is too long, with so many characters. -/
  | tooLong (length : Nat)
  deriving DecidableEq, Repr

/-- The message of an error. It names the field, but does not hold the value. -/
def Error.message : Error → String
  | .invalid .date _ => "invalid HTTP-date"
  | .invalid field _ => "invalid " ++ field.name ++ " header value"
  | .tooLong _ => "header value exceeds maximum length limit"

namespace Reading

/-- The value of a reading, or the given error if the text was refused. -/
def orError {α : Type} (r : Reading α) (e : Error) : Except Error α :=
  match r.value with
  | some value => .ok value
  | none => .error e

end Reading

/-- The value of a field that a text stands for, or the error that it stands for none. -/
def Field.parse (field : Field) (v : Text) (calendar : Calendar := .gregorian) : Except Error field.Value :=
  (field.read v calendar).orError (.invalid field v)

theorem Field.parse_eq_ok_iff {field : Field} {v : Text} {calendar : Calendar} {value : field.Value} :
    field.parse v calendar = .ok value ↔ field.parse? v calendar = some value := by
  rw [parse, Reading.orError, parse?]
  cases (field.read v calendar).value with
  | none => exact ⟨nofun, nofun⟩
  | some value' => rw [Except.ok.injEq, Option.some.injEq]

/-- The error of a field names the field and holds the text. -/
theorem Field.parse_eq_error_iff {field : Field} {v : Text} {calendar : Calendar} {e : Error} :
    field.parse v calendar = .error e ↔ field.parse? v calendar = none ∧ e = .invalid field v := by
  rw [parse, Reading.orError, parse?]
  cases (field.read v calendar).value with
  | none => rw [Except.error.injEq, eq_comm, and_iff_right rfl]
  | some value => exact ⟨nofun, nofun⟩

/-- **Reading back.** Suppose that a text is read as what it stands for, that texts stand for well-formed values only,
    and that a well-formed value is written as a text that stands for it. Then the values that are read back are those
    that are well formed, and what was read is read back once it is written. -/
theorem Field.parse_write_of_stands (field : Field) {Stands : Text → field.Value → Prop}
    {WellFormed : field.Value → Prop} {write : field.Value → Text}
    (hread : ∀ v value, field.parse? v = some value ↔ Stands v value)
    (hwellFormed : ∀ v value, Stands v value → WellFormed value)
    (hwrite : ∀ value, WellFormed value → Stands (write value) value) :
    (∀ value, field.parse (write value) = .ok value ↔ WellFormed value) ∧
      (∀ v value, field.parse v = .ok value → WellFormed value) ∧
      ∀ v value, field.parse v = .ok value → field.parse (write value) = .ok value := by
  have hof : ∀ v value, field.parse v = .ok value → WellFormed value := by
    intro v value h
    exact hwellFormed v value ((hread v value).mp (parse_eq_ok_iff.mp h))
  have hto : ∀ value, WellFormed value → field.parse (write value) = .ok value := by
    intro value h
    exact parse_eq_ok_iff.mpr ((hread (write value) value).mpr (hwrite value h))
  refine ⟨fun value => ⟨hof (write value) value, hto value⟩, hof, ?_⟩
  intro v value h
  exact hto value (hof v value h)

/-! ## The reader -/

/-- A reader of field values that accepts at most `limit` characters, or any number if there is no limit. -/
structure Reader where
  limit : Option Nat := some 8000
  deriving DecidableEq, Repr

namespace Reader

/-- The reader with the usual limit. -/
def default : Reader := {}

instance : Inhabited Reader := ⟨default⟩

/-- The limit that a text of the given length exceeds, if it does. -/
def exceeded? (r : Reader) (length : Nat) : Option Nat := r.limit.filter (· < length)

/-- Reads a value of a field, with the events on the way. -/
def read (r : Reader) (field : Field) (v : Text) (calendar : Calendar := .gregorian) :
    Except Error field.Value × List Event :=
  match r.exceeded? v.length with
  | some limit => (.error (.tooLong v.length), [.overLimit v.length limit])
  | none =>
    let reading := field.read v calendar
    (reading.orError (.invalid field v), reading.events)

end Reader

end HttpFields
