import HttpFields.Decimal
import HttpFields.Elements
import HttpFields.Event

/-!
# `HttpFields.Ranges` — the parts of a representation a request asks for

A range unit and a non-empty list of ranges in that unit. A range made of digits and a dash gives positions, which
must fit 64 bits; any other is kept as it is, for only the unit can tell what it means.
-/

namespace HttpFields

/-- One of the ranges asked for. -/
inductive RangeSpec where
  /-- The range from `first` to `last`, both included, or to the end. -/
  | between (first : UInt64) (last : Option UInt64)
  /-- The last `length` units. -/
  | suffix (length : UInt64)
  /-- A range in the notation of its unit. -/
  | other (spec : Text)
  deriving DecidableEq

/-- A range unit and the ranges asked for in it. -/
structure Ranges where
  unit : Text
  specs : List RangeSpec
  deriving DecidableEq

/-! ## One range -/

namespace RangeSpec

open Rule

/-- A first position, a dash, and possibly a last position. -/
def positions : Rule := .sequence [many1 CharClass.digit, '-', many CharClass.digit]

/-- A dash and a length. -/
def suffixLength : Rule := .sequence ['-', many1 CharClass.digit]

/-- The characters of a range: the visible ones apart from the comma. -/
def specChar : CharClass := .span '!' '+' ++ .span '-' '~'

/-- Any range. What follows positions or a length belongs to the same range, which then is of neither kind. -/
def grammar : Rule := .sequence [.choice [positions, suffixLength, many1 specChar], many specChar]

/-- The range that a text stands for, or nothing if one of its numbers does not fit 64 bits. -/
def ofText? (s : Text) : Option RangeSpec :=
  if positions.accepts s then do
    let (first, last) ← s.cutAt? '-'
    let first ← Decimal.toUInt64? first
    if last = [] then return .between first none
    let last ← Decimal.toUInt64? last
    return .between first (some last)
  else if suffixLength.accepts s then
    (Decimal.toUInt64? (s.drop 1)).map suffix
  else
    some (other s)

/-- The range as text. -/
def write : RangeSpec → Text
  | between first (some last) => Decimal.digits first.toNat ++ '-' :: Decimal.digits last.toNat
  | between first none => Decimal.digits first.toNat ++ ['-']
  | suffix length => '-' :: Decimal.digits length.toNat
  | other spec => spec

end RangeSpec

/-! ## The list of ranges -/

namespace Ranges

open Rule

/-- A unit, an equals sign and ranges separated by commas. -/
def grammar : Rule := .sequence [token, '=', separated RangeSpec.grammar]

/-- Reads a unit and its ranges. A single position that does not fit 64 bits refuses them all. -/
def read (v : Text) : Reading Ranges := do
  .require (grammar.accepts v) (.mismatch .range v)
  let (unit, specs) ← .lift (v.cutAt? '=')
  let specs ← .expect (specs.elements.mapM RangeSpec.ofText?) (.positionOutOfRange v)
  return ⟨unit, specs⟩

/-- The unit and its ranges as text, with bare commas between the ranges. -/
def write (r : Ranges) : Text := r.unit ++ '=' :: [','].intercalate (r.specs.map RangeSpec.write)

end Ranges

end HttpFields
