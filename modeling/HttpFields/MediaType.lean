import HttpFields.Elements
import HttpFields.Event
import HttpFields.Parameter

/-!
# `HttpFields.MediaType` — the format of a representation

A type and a subtype with optional parameters. Each parameter stands behind a semicolon with optional blanks; what
stands there may also be nothing, and is skipped.
-/

namespace HttpFields

/-- A media type. Parameters are either absent or not empty, when it was read from a text. -/
structure MediaType where
  type : Text
  subtype : Text
  parameters : Option Parameters
  deriving DecidableEq

namespace MediaType

open Rule

/-! ## Grammar -/

/-- A parameter, with no blanks around its equals sign. -/
def parameter : Rule := .sequence [token, '=', wordValue]

/-- Type and subtype, then any number of possibly empty parameters. -/
def grammar : Rule :=
  .sequence [token, '/', token, many (.sequence [separator ';', optional parameter])]

/-! ## Reading and writing -/

/-- Reads a semicolon and the parameter behind it, if there is one. -/
def readParameter? (s : Text) : Option (Option (Text × Text) × Text) := do
  let semicolon ← (separator ';').parse? s
  match parameter.parse? semicolon.rest with
  | none => return (none, semicolon.rest)
  | some m =>
    let entry ← Parameter.read? m.taken
    return (some entry, m.rest)

/-- Reads the parameters behind the subtype. -/
def readParameters? (s : Text) : Option Parameters :=
  (s.readEach? readParameter?).map fun entries => .ofList (entries.filterMap id)

/-- The subtype and what follows it, behind the slash. -/
def readSubtype? : Text → Option Match
  | '/' :: s => token.parse? s
  | _ => none

/-- Reads a media type. -/
def read (v : Text) : Reading MediaType := do
  .require (grammar.accepts v) (.mismatch .contentType v)
  let type ← .lift (token.parse? v)
  let subtype ← .lift (readSubtype? type.rest)
  let parameters ← .lift (readParameters? subtype.rest)
  return ⟨type.taken, subtype.taken, if parameters.isEmpty then none else some parameters⟩

/-- The media type as text, with the parameters in ascending order of their names. -/
def write (m : MediaType) : Text :=
  m.type ++ '/' :: m.subtype ++
    (m.parameters.elim [] (·.entries)).flatMap fun (name, value) => ';' :: ' ' :: Parameter.write name value

end MediaType

end HttpFields
