import HttpFields.Proofs.Credentials
import HttpFields.Proofs.Host.Reading
import HttpFields.Proofs.MediaType
import HttpFields.Proofs.Ranges

/-!
# `HttpFields.Proofs.Reader` — what the events of a reading tell

A text that its grammar accepts is gone over a second time for its parts, and a step of that second pass which failed
would refuse the text without a word (`Reading.lift`). None of them ever fails: each field gives a value for every text
that its grammar accepts, or says which number did not fit. So the events of a reader follow from its outcome, and what
is refused is refused with one reason. All this holds whatever calendar dates are read with.

* `Field.mismatchMessage`, `Field.rangeMessage?` — the messages, in full.
* `Field.objection?`, `Field.remarks` — what a field may say of a text that its grammar accepts.
* `Field.read_of_not_accepts`, `Field.read_of_accepts` — how reading a text ends, for any field.
* `Reader.read_eq_of_exceeds`, `Reader.read_eq_of_admits` — the limit is checked first, and changes nothing else.
* `Reader.events_of_error`, `Reader.events_of_ok` — the events of a refusal and of a value.
* `read_events` — the events of a reader, by its outcome.
-/

namespace HttpFields

/-! ## What there is to tell -/

/-- The text that an event holds. That a text is over the limit is told without the text. -/
def Event.text? : Event → Option Text
  | .mismatch _ v => some v
  | .portOutOfRange v => some v
  | .positionOutOfRange v => some v
  | .lengthOutOfRange v => some v
  | .notCalendarDate v => some v
  | .overLimit .. => none

namespace Field

/-- The message for a text that the grammar of a field does not accept. -/
def mismatchMessage : Field → String
  | .host => "Host value does not match grammar"
  | .date => "Date value does not match grammar"
  | .range => "Range value does not match grammar"
  | .authorization => "Authorization value does not match grammar"
  | .contentType => "Content-Type value does not match grammar"
  | .contentEncoding => "Content-Encoding value does not match grammar"
  | .contentLength => "Content-Length value does not match grammar"

/-- The message for a number that is out of range, in the fields that have numbers. -/
def rangeMessage? : Field → Option String
  | .host => some "Host port out of range"
  | .range => some "Range position out of range"
  | .contentLength => some "Content-Length out of range"
  | .date => none
  | .authorization => none
  | .contentType => none
  | .contentEncoding => none

/-- Why a field refuses a text that its grammar accepts: a number in it is out of range. -/
def objection? (v : Text) : Field → Option Event
  | .host => some (.portOutOfRange v)
  | .range => some (.positionOutOfRange v)
  | .contentLength => some (.lengthOutOfRange v)
  | .date => none
  | .authorization => none
  | .contentType => none
  | .contentEncoding => none

/-- What is told of a value that was read from a text: that no calendar has it, if it is a date kept as text. -/
def remarks (v : Text) : (field : Field) → field.Value → List Event
  | .date, .invalid _ => [.notCalendarDate v]
  | .date, .valid _ => []
  | .host, _ => []
  | .range, _ => []
  | .authorization, _ => []
  | .contentType, _ => []
  | .contentEncoding, _ => []
  | .contentLength, _ => []

theorem message_mismatch (field : Field) (v : Text) : (Event.mismatch field v).message = field.mismatchMessage := by
  cases field <;> rfl

/-- No field says the same of a number and of a text that its grammar does not accept. -/
theorem rangeMessage?_ne_mismatchMessage : ∀ field : Field, field.rangeMessage? ≠ some field.mismatchMessage
  | .host => by decide
  | .range => by decide
  | .contentLength => by decide
  | .date => nofun
  | .authorization => nofun
  | .contentType => nofun
  | .contentEncoding => nofun

/-- An objection is traced with the whole text, and its message is that a number is out of range. -/
theorem objection?_eq_some {field : Field} {v : Text} {e : Event} (h : field.objection? v = some e) :
    e.level = .trace ∧ e.text? = some v ∧ field.rangeMessage? = some e.message := by
  cases field with
  | host | range | contentLength =>
    cases h
    exact ⟨rfl, rfl, rfl⟩
  | date | authorization | contentType | contentEncoding => cases h

/-- A remark is traced with the whole text, and its message is that the date is none of the calendar. -/
theorem remark_of_mem {field : Field} {v : Text} {value : field.Value} :
    ∀ event ∈ field.remarks v value,
      event.level = .trace ∧ event.text? = some v ∧ event.message = "Date value is not a calendar date" := by
  intro event hevent
  cases field with
  | date =>
    cases value with
    | valid instant => cases hevent
    | invalid text =>
      obtain rfl := List.mem_singleton.mp hevent
      exact ⟨rfl, rfl, rfl⟩
  | host | range | authorization | contentType | contentEncoding | contentLength => cases hevent

end Field

/-! ## Fields whose second pass is one step -/

theorem HttpDate.read_of_accepts {v : Text} (h : grammar.accepts v = true) (calendar : Calendar) :
    ∃ date, read v calendar = ⟨some date, Field.date.remarks v date⟩ := by
  rw [read, h, Reading.require_true, Reading.accept_bind]
  cases instant? v calendar with
  | none => exact ⟨.invalid v, rfl⟩
  | some instant => exact ⟨.valid instant, rfl⟩

theorem Length.isClear_read {v : Text} (h : grammar.accepts v = true) : (read v).IsClear (.lengthOutOfRange v) := by
  rw [read, h, Reading.require_true, Reading.accept_bind]
  exact Reading.isClear_expect _ _

theorem Codings.read_eq_accept {v : Text} (h : grammar.accepts v = true) :
    read v = .accept (if v = [] then [] else v.elements) := by
  rw [read, h, Reading.require_true, Reading.accept_bind, Reading.pure_eq_accept]

/-! ## Any field -/

section Outcome

variable {calendar : Calendar}

namespace Field

theorem read_of_not_accepts {field : Field} {v : Text} (h : field.grammar.accepts v = false) :
    field.read v calendar = .refuse (.mismatch field v) := by
  cases field <;> exact Reading.require_bind_of_eq_false h

/-- **The second pass is never silent.** A text that its grammar accepts has a value, with the remarks on it, or is
    refused for the one reason that its field may have. -/
theorem read_of_accepts {field : Field} {v : Text} (h : field.grammar.accepts v = true) :
    (∃ value, field.read v calendar = ⟨some value, field.remarks v value⟩) ∨
      ∃ e, field.objection? v = some e ∧ field.read v calendar = .refuse e := by
  cases field with
  | host => exact (Host.isClear_read h).imp_right fun hrefuse => ⟨_, rfl, hrefuse⟩
  | range => exact (Ranges.isClear_read h).imp_right fun hrefuse => ⟨_, rfl, hrefuse⟩
  | contentLength => exact (Length.isClear_read h).imp_right fun hrefuse => ⟨_, rfl, hrefuse⟩
  | date => exact Or.inl (HttpDate.read_of_accepts h calendar)
  | authorization =>
    obtain ⟨c, hc⟩ := Credentials.isCredentials_of_accepts h
    exact Or.inl ⟨c, Credentials.read_eq_accept hc⟩
  | contentType =>
    obtain ⟨m, hm⟩ := MediaType.isMediaType_of_accepts h
    exact Or.inl ⟨m, MediaType.read_eq_accept hm⟩
  | contentEncoding => exact Or.inl ⟨_, Codings.read_eq_accept h⟩

/-- The event is traced with the whole text, and what it is and what its message is both tell whether the grammar
    accepts the text: a number is out of range, or the text does not match the grammar. -/
structure ExplainsRefusal (field : Field) (v : Text) (event : Event) : Prop where
  level_eq : event.level = .trace
  text?_eq : event.text? = some v
  eq_mismatch_iff : event = .mismatch field v ↔ field.grammar.accepts v = false
  eq_objection_iff : field.objection? v = some event ↔ field.grammar.accepts v = true
  message_eq_mismatch_iff : event.message = field.mismatchMessage ↔ field.grammar.accepts v = false
  message_eq_range_iff : field.rangeMessage? = some event.message ↔ field.grammar.accepts v = true

theorem explainsRefusal_mismatch {field : Field} {v : Text} (h : field.grammar.accepts v = false) :
    field.ExplainsRefusal v (.mismatch field v) := by
  have hnot : ¬ field.grammar.accepts v = true := Bool.eq_false_iff.mp h
  refine ⟨rfl, rfl, iff_of_true rfl h, iff_of_false ?_ hnot, iff_of_true (message_mismatch field v) h,
    iff_of_false ?_ hnot⟩
  · intro hobjection
    obtain ⟨-, -, hrange⟩ := objection?_eq_some hobjection
    rw [message_mismatch] at hrange
    exact rangeMessage?_ne_mismatchMessage field hrange
  · rw [message_mismatch]
    exact rangeMessage?_ne_mismatchMessage field

theorem explainsRefusal_objection {field : Field} {v : Text} {e : Event} (h : field.grammar.accepts v = true)
    (hobjection : field.objection? v = some e) : field.ExplainsRefusal v e := by
  have hnot : ¬ field.grammar.accepts v = false := Bool.not_eq_false _ ▸ h
  obtain ⟨hlevel, htext, hrange⟩ := objection?_eq_some hobjection
  have hmessage : e.message ≠ field.mismatchMessage := by
    intro hmessage
    rw [hmessage] at hrange
    exact rangeMessage?_ne_mismatchMessage field hrange
  refine ⟨hlevel, htext, iff_of_false ?_ hnot, iff_of_true hobjection h, iff_of_false hmessage hnot,
    iff_of_true hrange h⟩
  rintro rfl
  exact hmessage (message_mismatch field v)

/-- **Refused for one reason**, which is traced with the whole text, and tells whether the grammar accepts it. -/
theorem events_of_refused {field : Field} {v : Text} (h : field.parse? v calendar = none) :
    ∃ event, (field.read v calendar).events = [event] ∧ field.ExplainsRefusal v event := by
  cases haccepts : field.grammar.accepts v with
  | false =>
    refine ⟨.mismatch field v, ?_, explainsRefusal_mismatch haccepts⟩
    rw [read_of_not_accepts haccepts]
    rfl
  | true =>
    rcases read_of_accepts haccepts with ⟨value, hread⟩ | ⟨e, hobjection, hread⟩
    · rw [parse?, hread] at h
      cases h
    · refine ⟨e, ?_, explainsRefusal_objection haccepts hobjection⟩
      rw [hread]
      rfl

/-- A value comes with the remarks on it, and only where the grammar accepts the text. -/
theorem events_of_parse? {field : Field} {v : Text} {value : field.Value} (h : field.parse? v calendar = some value) :
    (field.read v calendar).events = field.remarks v value ∧ field.grammar.accepts v = true := by
  cases haccepts : field.grammar.accepts v with
  | false =>
    rw [parse?, read_of_not_accepts haccepts] at h
    cases h
  | true =>
    refine ⟨?_, rfl⟩
    rcases read_of_accepts haccepts with ⟨value', hread⟩ | ⟨e, -, hread⟩
    · rw [parse?, hread] at h
      cases h
      rw [hread]
    · rw [parse?, hread] at h
      cases h

/-- What is told of a date says whether the grammar accepts it. -/
theorem notCalendarDate_iff {v : Text} {event : Event} (hevent : event ∈ (Field.date.read v calendar).events) :
    (event = .notCalendarDate v ↔ Field.date.grammar.accepts v = true) ∧
      (event.message = "Date value is not a calendar date" ↔ Field.date.grammar.accepts v = true) := by
  cases h : Field.date.parse? v calendar with
  | none =>
    obtain ⟨event', hevents, hexplains⟩ := events_of_refused h
    obtain rfl : event = event' := List.mem_singleton.mp (hevents ▸ hevent)
    -- no date that is accepted is refused
    have hnot : ¬ Field.date.grammar.accepts v = true := by
      intro haccepts
      cases hexplains.eq_objection_iff.mpr haccepts
    have hmismatch := hexplains.eq_mismatch_iff.mpr (Bool.eq_false_iff.mpr hnot)
    rw [hmismatch]
    exact ⟨iff_of_false nofun hnot, iff_of_false (by rw [message_mismatch]; decide) hnot⟩
  | some date =>
    obtain ⟨hevents, haccepts⟩ := events_of_parse? h
    rw [hevents] at hevent
    obtain ⟨-, -, hmessage⟩ := remark_of_mem event hevent
    cases date with
    | valid instant => cases hevent
    | invalid text => exact ⟨iff_of_true (List.mem_singleton.mp hevent) haccepts, iff_of_true hmessage haccepts⟩

end Field

/-! ## The reader -/

namespace Reader

/-- A text over the limit is told of with its length and the limit, and no more. -/
theorem read_eq_of_exceeds {r : Reader} {limit : Nat} {v : Text} (field : Field) (hlimit : r.limit = some limit)
    (hlt : limit < v.length) :
    r.read field v calendar = (.error (.tooLong v.length), [.overLimit v.length limit]) := by
  have hexceeded : r.exceeded? v.length = some limit := by
    rw [exceeded?, hlimit, Option.filter_some, if_pos (decide_eq_true hlt)]
  rw [read, hexceeded]

/-- A text that is not over the limit is read as its field has it. -/
theorem read_eq_of_admits {r : Reader} {v : Text} (field : Field)
    (h : ∀ limit, r.limit = some limit → v.length ≤ limit) :
    r.read field v calendar = (field.parse v calendar, (field.read v calendar).events) := by
  have hexceeded : r.exceeded? v.length = none := by
    rw [exceeded?, Option.filter_eq_none_iff]
    intro limit hlimit
    rw [decide_eq_true_eq, Nat.not_lt]
    exact h limit hlimit
  rw [read, hexceeded]
  rfl

theorem read_none (field : Field) (v : Text) :
    (⟨none⟩ : Reader).read field v calendar = (field.parse v calendar, (field.read v calendar).events) := rfl

/-- A text is over the limit of a reader, or is not. -/
theorem exceeds_or_admits (r : Reader) (v : Text) :
    (∃ limit, r.limit = some limit ∧ limit < v.length) ∨ ∀ limit, r.limit = some limit → v.length ≤ limit := by
  by_cases h : ∃ limit, r.limit = some limit ∧ limit < v.length
  · exact Or.inl h
  · refine Or.inr fun limit hlimit => Nat.not_lt.mp fun hlt => ?_
    exact h ⟨limit, hlimit, hlt⟩

/-- **Too long.** A text is too long exactly if it is over the limit, and that is said with its length. -/
theorem read_eq_tooLong_iff {r : Reader} {field : Field} {v : Text} {k : Nat} :
    (r.read field v calendar).1 = .error (.tooLong k) ↔ k = v.length ∧ ∃ limit, r.limit = some limit ∧ limit < k := by
  constructor
  · intro h
    rcases r.exceeds_or_admits v with ⟨limit, hlimit, hlt⟩ | hadmits
    · rw [read_eq_of_exceeds field hlimit hlt] at h
      cases h
      exact ⟨rfl, limit, hlimit, hlt⟩
    · rw [read_eq_of_admits field hadmits] at h
      cases (Field.parse_eq_error_iff.mp h).2
  · rintro ⟨rfl, limit, hlimit, hlt⟩
    rw [read_eq_of_exceeds field hlimit hlt]

/-- A text that is not too long is read as its field has it. -/
theorem read_eq_of_not_tooLong {r : Reader} {field : Field} {v : Text}
    (h : ∀ k, (r.read field v calendar).1 ≠ .error (.tooLong k)) :
    r.read field v calendar = (field.parse v calendar, (field.read v calendar).events) := by
  apply read_eq_of_admits
  intro limit hlimit
  apply Nat.not_lt.mp
  intro hlt
  exact h v.length (read_eq_tooLong_iff.mpr ⟨rfl, limit, hlimit, hlt⟩)

/-- Any other error is that of the field, and comes with the one event of a text that is refused. -/
theorem events_of_error {r : Reader} {field : Field} {v : Text} {e : Error}
    (h : (r.read field v calendar).1 = .error e) (he : ∀ k, e ≠ .tooLong k) :
    e = .invalid field v ∧ ∃ event, (r.read field v calendar).2 = [event] ∧ field.ExplainsRefusal v event := by
  have hread : r.read field v calendar = (field.parse v calendar, (field.read v calendar).events) := by
    apply read_eq_of_not_tooLong
    intro k hk
    exact he k (Except.error.inj (h.symm.trans hk))
  rw [hread] at h ⊢
  obtain ⟨hnone, rfl⟩ := Field.parse_eq_error_iff.mp h
  exact ⟨rfl, Field.events_of_refused hnone⟩

/-- A value comes with the remarks on it. -/
theorem events_of_ok {r : Reader} {field : Field} {v : Text} {value : field.Value}
    (h : (r.read field v calendar).1 = .ok value) : (r.read field v calendar).2 = field.remarks v value := by
  have hread : r.read field v calendar = (field.parse v calendar, (field.read v calendar).events) := by
    apply read_eq_of_not_tooLong
    intro k hk
    cases h.symm.trans hk
  rw [hread] at h ⊢
  exact (Field.events_of_parse? (Field.parse_eq_ok_iff.mp h)).1

end Reader

end Outcome

/-- **What the events tell.** A text over the limit, and no other, is too long; then nothing is told but its length
    and the limit. Any other text is read as if there were no limit. If it is refused, the error holds the whole text,
    and so does the one event, whose message is that a number is out of range if the grammar accepts the text, and
    that it does not match the grammar if not. If it is read, nothing is told, except of a date that no calendar has.
    So no text that its grammar accepts is refused without a word. -/
theorem read_events (calendar : Calendar) (r : Reader) (field : Field) (v : Text) :
    (∀ k, (r.read field v calendar).1 = .error (.tooLong k) ↔
      k = v.length ∧ ∃ limit, r.limit = some limit ∧ limit < k) ∧
    (∀ k, (r.read field v calendar).1 = .error (.tooLong k) →
      ∃ limit, r.limit = some limit ∧ (r.read field v calendar).2 = [.overLimit k limit] ∧
        ∀ event ∈ (r.read field v calendar).2, event.level = .debug ∧ event.message = "Field value exceeds limit") ∧
    ((∀ k, (r.read field v calendar).1 ≠ .error (.tooLong k)) →
      r.read field v calendar = (⟨none⟩ : Reader).read field v calendar) ∧
    (∀ e, (r.read field v calendar).1 = .error e → (∀ k, e ≠ .tooLong k) →
      e = .invalid field v ∧ ∃ event, (r.read field v calendar).2 = [event] ∧ field.ExplainsRefusal v event) ∧
    (∀ value, (r.read field v calendar).1 = .ok value →
      (r.read field v calendar).2 = field.remarks v value ∧
        ∀ event ∈ field.remarks v value,
          event.level = .trace ∧ event.text? = some v ∧ event.message = "Date value is not a calendar date") ∧
    (∀ event ∈ (r.read .date v calendar).2, event.level = .trace →
      (event = .notCalendarDate v ↔ Field.date.grammar.accepts v = true) ∧
        (event.message = "Date value is not a calendar date" ↔ Field.date.grammar.accepts v = true)) ∧
    (field.grammar.accepts v = true → (∃ value, field.parse? v calendar = some value) ∨
      ∃ event, field.read v calendar = .refuse event ∧ field.objection? v = some event ∧
        event.level = .trace ∧ event.text? = some v ∧ field.rangeMessage? = some event.message) := by
  refine ⟨fun k => Reader.read_eq_tooLong_iff, ?_, ?_, ?_, ?_, ?_, ?_⟩
  · intro k h
    obtain ⟨rfl, limit, hlimit, hlt⟩ := Reader.read_eq_tooLong_iff.mp h
    rw [Reader.read_eq_of_exceeds field hlimit hlt]
    exact ⟨limit, hlimit, rfl, List.forall_mem_singleton.mpr ⟨rfl, rfl⟩⟩
  · intro h
    rw [Reader.read_eq_of_not_tooLong h, Reader.read_none]
  · intro e h he
    exact Reader.events_of_error h he
  · intro value h
    exact ⟨Reader.events_of_ok h, Field.remark_of_mem⟩
  · intro event hevent hlevel
    rcases r.exceeds_or_admits v with ⟨limit, hlimit, hlt⟩ | hadmits
    · rw [Reader.read_eq_of_exceeds .date hlimit hlt] at hevent
      obtain rfl := List.mem_singleton.mp hevent
      cases hlevel
    · rw [Reader.read_eq_of_admits .date hadmits] at hevent
      exact Field.notCalendarDate_iff hevent
  · intro haccepts
    rcases Field.read_of_accepts haccepts with ⟨value, hread⟩ | ⟨e, hobjection, hread⟩
    · exact Or.inl ⟨value, congrArg Reading.value hread⟩
    · exact Or.inr ⟨e, hread, hobjection, Field.objection?_eq_some hobjection⟩

/-- A name that is too long by one character, counted and not measured in bytes; a port that is too large by one; and a
    day that its year does not have. -/
theorem read_events_refused :
    let name := "b\u00fccher.example".toList
    let port := "a:65536".toList
    let noDay := "Thu Feb 29 08:49:37 1900".toList
    ((⟨some 13⟩ : Reader).read .host name = (.error (.tooLong 14), [.overLimit 14 13]) ∧
        (⟨some 14⟩ : Reader).read .host name = (⟨none⟩ : Reader).read .host name) ∧
      (∃ event, (Reader.default.read .host port).2 = [event] ∧ event.message = "Host port out of range") ∧
      (Reader.default.read .date noDay).2 = [.notCalendarDate noDay] := by
  intro name port noDay
  have hlong : ((⟨some 13⟩ : Reader).read .host name).1 = .error (.tooLong 14) :=
    ((read_events .gregorian ⟨some 13⟩ .host name).1 14).mpr ⟨rfl, 13, rfl, by decide⟩
  have hadmitted : ∀ k, ((⟨some 14⟩ : Reader).read .host name).1 ≠ .error (.tooLong k) := by
    intro k hk
    obtain ⟨rfl, limit, hlimit, hlt⟩ := ((read_events .gregorian ⟨some 14⟩ .host name).1 k).mp hk
    obtain rfl : 14 = limit := Option.some.inj hlimit
    exact absurd hlt (by decide)
  have hport : (Reader.default.read .host port).1 = .error (.invalid .host port) := by decide +kernel
  have haccepts : Field.host.grammar.accepts port = true := by decide +kernel
  have hnoDay : (Reader.default.read .date noDay).1 = .ok (.invalid noDay) := by decide +kernel
  refine ⟨⟨?_, (read_events .gregorian ⟨some 14⟩ .host name).2.2.1 hadmitted⟩, ?_, ?_⟩
  · obtain ⟨limit, hlimit, hevents, -⟩ := (read_events .gregorian ⟨some 13⟩ .host name).2.1 14 hlong
    obtain rfl : 13 = limit := Option.some.inj hlimit
    exact Prod.ext hlong hevents
  · obtain ⟨-, event, hevents, hexplains⟩ := (read_events .gregorian Reader.default .host port).2.2.2.1 _ hport nofun
    exact ⟨event, hevents, (Option.some.inj (hexplains.message_eq_range_iff.mpr haccepts)).symm⟩
  · exact ((read_events .gregorian Reader.default .date noDay).2.2.2.2.1 _ hnoDay).1

end HttpFields
