import HttpFields.Text

/-!
# `HttpFields.Event` — fields, refusals and the events that explain them

Reading a field value either gives a value or refuses the text. Next to its outcome a reading keeps the events that
a log would show: one that says why a text was refused, or that a date was kept as text because no calendar has it.

* `Field` — the fields that can be read.
* `Event` — what is logged, with its level and message.
* `Reading` — an outcome together with its events; a failure may be silent (`Reading.lift`) or not
  (`Reading.refuse`).
* `Reading.IsQuiet`, `Reading.IsClear` — readings that tell nothing, and readings that are never refused without a
  reason; both go on to readings of their kind.
-/

namespace HttpFields

/-! ## Fields -/

/-- The header fields whose values can be read. -/
inductive Field where
  | host
  | date
  | range
  | authorization
  | contentType
  | contentEncoding
  | contentLength
  deriving DecidableEq, Repr

/-- The name of a field as it is written in a message. -/
def Field.name : Field → String
  | .host => "Host"
  | .date => "Date"
  | .range => "Range"
  | .authorization => "Authorization"
  | .contentType => "Content-Type"
  | .contentEncoding => "Content-Encoding"
  | .contentLength => "Content-Length"

/-! ## Events -/

/-- How much an event matters. -/
inductive Level where
  | trace
  | debug
  deriving DecidableEq, Repr

/-- The events of reading a field value. -/
inductive Event where
  /-- The value does not match the grammar of its field. -/
  | mismatch (field : Field) (value : Text)
  /-- The port of a host does not fit 16 bits. -/
  | portOutOfRange (value : Text)
  /-- A position or length of a range does not fit 64 bits. -/
  | positionOutOfRange (value : Text)
  /-- A content length does not fit 64 bits. -/
  | lengthOutOfRange (value : Text)
  /-- The value is shaped like a date but names no instant of the calendar. -/
  | notCalendarDate (value : Text)
  /-- The value has more characters than the reader accepts. -/
  | overLimit (length limit : Nat)
  deriving DecidableEq, Repr

namespace Event

/-- A value over the limit is a matter for debugging, all else for tracing. -/
def level : Event → Level
  | .overLimit .. => .debug
  | _ => .trace

/-- The message of an event. It does not hold the value, which is logged beside it. -/
def message : Event → String
  | .mismatch field _ => field.name ++ " value does not match grammar"
  | .portOutOfRange _ => "Host port out of range"
  | .positionOutOfRange _ => "Range position out of range"
  | .lengthOutOfRange _ => "Content-Length out of range"
  | .notCalendarDate _ => "Date value is not a calendar date"
  | .overLimit .. => "Field value exceeds limit"

end Event

/-! ## Readings -/

/-- The outcome of reading a text, `none` if it was refused, and the events on the way. -/
structure Reading (α : Type) where
  value : Option α
  events : List Event
  deriving DecidableEq

namespace Reading

variable {α β : Type}

/-- A reading that gives a value without an event. -/
def accept (a : α) : Reading α := ⟨some a, []⟩

/-- A reading that gives a value and leaves an event. -/
def note (e : Event) (a : α) : Reading α := ⟨some a, [e]⟩

/-- A reading that refuses the text and says why. -/
def refuse (e : Event) : Reading α := ⟨none, [e]⟩

/-- The given value, or a refusal without an event. -/
def lift (a : Option α) : Reading α := ⟨a, []⟩

/-- The given value, or a refusal for the given reason. -/
def expect (a : Option α) (e : Event) : Reading α :=
  match a with
  | some a => accept a
  | none => refuse e

/-- A refusal for the given reason unless the condition holds. -/
def require (condition : Bool) (e : Event) : Reading Unit := if condition then accept () else refuse e

/-- Goes on with the value of a reading, if there is one. Its events come first. -/
def bind (r : Reading α) (next : α → Reading β) : Reading β :=
  match r.value with
  | none => ⟨none, r.events⟩
  | some a => ⟨(next a).value, r.events ++ (next a).events⟩

instance : Monad Reading where
  pure := accept
  bind := bind

@[simp] theorem pure_eq_accept (a : α) : (pure a : Reading α) = accept a := rfl

@[simp] theorem accept_bind (a : α) (next : α → Reading β) : (accept a >>= next) = next a := by
  show bind _ _ = _
  simp [bind, accept]

@[simp] theorem refuse_bind (e : Event) (next : α → Reading β) : (refuse e >>= next) = refuse e := rfl

@[simp] theorem lift_some (a : α) : lift (some a) = accept a := rfl

@[simp] theorem expect_some (a : α) (e : Event) : expect (some a) e = accept a := rfl

@[simp] theorem expect_none (e : Event) : expect (none : Option α) e = refuse e := rfl

@[simp] theorem require_true (e : Event) : require true e = accept () := rfl

@[simp] theorem require_false (e : Event) : require false e = refuse e := rfl

@[simp] theorem value_accept (a : α) : (accept a).value = some a := rfl

@[simp] theorem value_lift (o : Option α) : (lift o).value = o := rfl

@[simp] theorem value_expect (o : Option α) (e : Event) : (expect o e).value = o := by
  cases o <;> rfl

/-- **Going on.** A reading that goes on gives a value if it has one to go on from. -/
theorem value_bind_eq_some_iff {r : Reading α} {next : α → Reading β} {b : β} :
    (r >>= next).value = some b ↔ ∃ a, r.value = some a ∧ (next a).value = some b := by
  show (bind r next).value = some b ↔ _
  rw [bind]
  cases r.value with
  | none =>
    constructor
    · intro h
      cases h
    · rintro ⟨a, h, -⟩
      cases h
  | some a =>
    constructor
    · intro h
      exact ⟨a, rfl, h⟩
    · rintro ⟨_, ⟨⟩, h⟩
      exact h

/-- A reading that goes on from a condition gives a value if the condition holds. -/
theorem value_require_bind_eq_some_iff {condition : Bool} {e : Event} {next : Unit → Reading β} {b : β} :
    (require condition e >>= next).value = some b ↔ condition = true ∧ (next ()).value = some b := by
  cases condition with
  | false =>
    rw [require_false, refuse_bind]
    constructor
    · intro h
      cases h
    · rintro ⟨h, -⟩
      cases h
  | true => rw [require_true, accept_bind, and_iff_right rfl]

/-- **Accepted and read.** If every accepted text stands for something, and what a text stands for is read, then a text
    is read as what it stands for and as nothing else. -/
theorem value_require_bind_eq_some_iff_of_stands {condition : Bool} {e : Event} {next : Unit → Reading β}
    {Stands : β → Prop} (haccepted : condition = true → ∃ b, Stands b)
    (hread : ∀ b, Stands b → (require condition e >>= next).value = some b) {b : β} :
    (require condition e >>= next).value = some b ↔ Stands b := by
  constructor
  · intro h
    obtain ⟨hcondition, -⟩ := value_require_bind_eq_some_iff.mp h
    obtain ⟨b', hb'⟩ := haccepted hcondition
    have heq : b = b' := Option.some.inj (h.symm.trans (hread b' hb'))
    rw [heq]
    exact hb'
  · exact hread b

/-- A text that does not meet the condition is refused for the given reason. -/
theorem require_bind_of_eq_false {condition : Bool} {e : Event} {next : Unit → Reading β} (h : condition = false) :
    (require condition e >>= next) = refuse e := by
  rw [h, require_false, refuse_bind]

/-! ### Quiet readings -/

/-- A reading that leaves no event. If it gives no value, nothing tells why. -/
def IsQuiet (r : Reading α) : Prop := r.events = []

theorem isQuiet_accept (a : α) : (accept a).IsQuiet := rfl

theorem isQuiet_lift (a : Option α) : (lift a).IsQuiet := rfl

theorem IsQuiet.bind {r : Reading α} {next : α → Reading β} (h : r.IsQuiet) (hnext : ∀ a, (next a).IsQuiet) :
    (r >>= next).IsQuiet := by
  show (Reading.bind r next).events = []
  rw [Reading.bind]
  cases r.value with
  | none => exact h
  | some a => exact List.append_eq_nil_iff.mpr ⟨h, hnext a⟩

/-- A quiet reading that gives a value accepts it. -/
theorem IsQuiet.eq_accept {r : Reading α} {a : α} (h : r.IsQuiet) (hvalue : r.value = some a) : r = accept a := by
  obtain ⟨value, events⟩ := r
  obtain rfl : value = some a := hvalue
  obtain rfl : events = [] := h
  rfl

/-- **Accepted quietly.** A text that gives a value, and is read quietly once it meets the condition, is accepted. -/
theorem require_bind_eq_accept {condition : Bool} {e : Event} {next : Unit → Reading β} {b : β}
    (hquiet : (next ()).IsQuiet) (h : (require condition e >>= next).value = some b) :
    (require condition e >>= next) = accept b := by
  obtain ⟨hcondition, hvalue⟩ := value_require_bind_eq_some_iff.mp h
  rw [hcondition, require_true, accept_bind]
  exact hquiet.eq_accept hvalue

/-! ### Clear readings -/

/-- A reading that gives a value and leaves no event, or refuses the text for the given reason. -/
def IsClear (r : Reading α) (e : Event) : Prop := (∃ a, r = accept a) ∨ r = refuse e

theorem isClear_accept (a : α) (e : Event) : (accept a).IsClear e := Or.inl ⟨a, rfl⟩

theorem isClear_expect (a : Option α) (e : Event) : (expect a e).IsClear e := by
  cases a with
  | none => exact Or.inr rfl
  | some a => exact isClear_accept a e

theorem IsClear.bind {r : Reading α} {e : Event} {next : α → Reading β} (h : r.IsClear e)
    (hnext : ∀ a, (next a).IsClear e) : (r >>= next).IsClear e := by
  rcases h with ⟨a, rfl⟩ | rfl
  · rw [accept_bind]
    exact hnext a
  · exact Or.inr (refuse_bind e next)

end Reading

end HttpFields
