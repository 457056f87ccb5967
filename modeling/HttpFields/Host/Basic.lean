import HttpFields.Decimal
import HttpFields.Event
import HttpFields.Host.Address

/-!
# `HttpFields.Host.Basic` — the host and port a request is for

A host is an address in square brackets or a registered name, kept as it was written, with an optional port. An IPv4
address counts as a registered name, so that a longer name which starts with one is matched as a whole.
-/

namespace HttpFields

/-- A host and, if there is one, a port. -/
structure Host where
  host : Text
  port : Option UInt16
  deriving DecidableEq

namespace Host

open Rule

/-! ## Grammar -/

/-- A character given by its two hexadecimal digits. -/
def percentEncoded : Rule := .sequence ['%', CharClass.hexDigit, CharClass.hexDigit]

/-- A registered name, which may be empty. -/
def registeredName : Rule :=
  many (.choice [CharClass.unreserved, percentEncoded, CharClass.subDelimiter])

/-- A host without its port. -/
def name : Rule := .choice [Address.bracketed, registeredName]

/-- A host with an optional port, whose number may be left out. -/
def grammar : Rule := .sequence [name, optional (.sequence [':', many CharClass.digit])]

/-! ## Reading and writing -/

/-- Reads a host. A port must fit 16 bits; a colon without digits gives no port. -/
def read (v : Text) : Reading Host := do
  .require (grammar.accepts v) (.mismatch .host v)
  let m ← .lift (name.parse? v)
  match m.rest with
  | ':' :: d :: ds =>
    let port ← .expect (Decimal.toUInt16? (d :: ds)) (.portOutOfRange v)
    return ⟨m.taken, some port⟩
  | _ => return ⟨m.taken, none⟩

/-- The host as text, with the port in decimal. -/
def write (h : Host) : Text :=
  match h.port with
  | some port => h.host ++ ':' :: Decimal.digits port.toNat
  | none => h.host

end Host

end HttpFields
