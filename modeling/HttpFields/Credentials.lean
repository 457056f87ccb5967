import HttpFields.Elements
import HttpFields.Event
import HttpFields.Parameter

/-!
# `HttpFields.Credentials` — how a client authenticates itself

A scheme and what it needs: nothing, one opaque `token68`, or named parameters. A name with its equals sign is a
complete `token68` as well. Since matching never goes back, the parameters have to be tried before it.
-/

namespace HttpFields

/-- What follows the scheme. -/
inductive Authentication where
  /-- An opaque word. -/
  | token68 (word : Text)
  /-- Named parameters. -/
  | parameters (parameters : Parameters)
  deriving DecidableEq

/-- A scheme and what follows it. -/
structure Credentials where
  scheme : Text
  authentication : Option Authentication
  deriving DecidableEq

namespace Credentials

open Rule

/-! ## Grammar -/

/-- A parameter, with optional blanks around its equals sign. -/
def parameter : Rule := .sequence [token, separator '=', wordValue]

/-- One parameter or more. -/
def parameterList : Rule := separated parameter

/-- A scheme, optionally followed by spaces and either parameters or a `token68`, which may be empty. -/
def grammar : Rule :=
  .sequence [token, optional (.sequence [many1 ' ', .choice [parameterList, Rule.token68]])]

/-! ## Reading and writing -/

/-- Reads one parameter and, unless nothing is left behind it, the comma that it goes on with. -/
def readParameter? (s : Text) : Option ((Text × Text) × Option Text) := do
  let m ← parameter.parse? s
  let entry ← Parameter.read? m.taken
  if m.rest = [] then return (entry, none)
  let comma ← (separator ',').parse? m.rest
  return (entry, some comma.rest)

/-- Reads the parameters behind the scheme. There has to be one at the start and behind every comma. -/
def readParameters? (s : Text) : Option Parameters :=
  (s.readOn? readParameter?).map .ofList

/-- Reads what follows the scheme and its spaces. -/
def readAuthentication? (s : Text) : Option Authentication :=
  if parameterList.accepts s then (readParameters? s).map .parameters else some (.token68 s)

/-- Reads credentials. -/
def read (v : Text) : Reading Credentials := do
  .require (grammar.accepts v) (.mismatch .authorization v)
  let scheme ← .lift (token.parse? v)
  match scheme.rest.dropWhile (· = ' ') with
  | [] => return ⟨scheme.taken, none⟩
  | rest =>
    let authentication ← .lift (readAuthentication? rest)
    return ⟨scheme.taken, some authentication⟩

/-- The credentials as text, with the parameters in ascending order of their names. -/
def write (c : Credentials) : Text :=
  match c.authentication with
  | none => c.scheme
  | some (.token68 word) => c.scheme ++ ' ' :: word
  | some (.parameters p) =>
    match p.entries.map fun (name, value) => Parameter.write name value with
    | [] => c.scheme
    | entries => c.scheme ++ ' ' :: [',', ' '].intercalate entries

end Credentials

end HttpFields
