import HttpFields.Token

/-!
# `HttpFields.Host.Address` — the grammar of IP addresses

IPv4 addresses, IPv6 addresses and the literals of address formats to come. Matching never goes back, so the order of
alternatives matters: the longest form of an octet stands first, an embedded IPv4 address is tried before the two
groups it could be mistaken for, and the groups in front of a `::` are written so that they leave both of its colons.
-/

namespace HttpFields

namespace CharClass

/-- The delimiters that a name may contain. -/
def subDelimiter : CharClass := ofText ['!', '$', '&', '\x27', '(', ')', '*', '+', ',', ';', '=']

/-- The characters that a name may contain without a special meaning. -/
def unreserved : CharClass := alpha ++ digit ++ ofText ['-', '.', '_', '~']

end CharClass

namespace Address

open Rule

/-- A group of an IPv6 address: one to four hexadecimal digits. -/
def hexGroup : Rule := .repetition CharClass.hexDigit 1 (some 4)

/-- A number from 0 to 255 without leading zeros. -/
def octet : Rule :=
  .choice [
    .sequence ['2', '5', between '0' '5'],
    .sequence ['2', between '0' '4', CharClass.digit],
    .sequence ['1', CharClass.digit, CharClass.digit],
    .sequence [between '1' '9', CharClass.digit],
    CharClass.digit]

/-- An IPv4 address. -/
def ipv4 : Rule := .sequence [octet, '.', octet, '.', octet, '.', octet]

/-- The last two groups of an IPv6 address, which may be written as an IPv4 address. -/
def lastGroups : Rule := .choice [ipv4, .sequence [hexGroup, ':', hexGroup]]

/-- The given number of groups, each followed by a colon. -/
def groupsBefore (count : Nat) : Rule := exactly count (.sequence [hexGroup, ':'])

/-- At most `more + 1` groups joined by colons, or none at all. -/
def groupsUpTo (more : Nat) : Rule :=
  optional (.sequence [hexGroup, .repetition (.sequence [':', hexGroup]) 0 (some more)])

/-- The `::` that stands for groups left out. -/
def gap : Rule := literal [':', ':']

/-- An IPv6 address: eight groups, of which a gap may stand for any number. -/
def ipv6 : Rule :=
  .choice [
    .sequence [groupsBefore 6, lastGroups],
    .sequence [gap, groupsBefore 5, lastGroups],
    .sequence [optional hexGroup, gap, groupsBefore 4, lastGroups],
    .sequence [groupsUpTo 1, gap, groupsBefore 3, lastGroups],
    .sequence [groupsUpTo 2, gap, groupsBefore 2, lastGroups],
    .sequence [groupsUpTo 3, gap, hexGroup, ':', lastGroups],
    .sequence [groupsUpTo 4, gap, lastGroups],
    .sequence [groupsUpTo 5, gap, hexGroup],
    .sequence [groupsUpTo 6, gap]]

/-- The characters of an address in a format to come. -/
def futureChar : CharClass := CharClass.unreserved ++ CharClass.subDelimiter ++ .ofText [':']

/-- An address in a format to come: its version number and its text. -/
def ipvFuture : Rule := .sequence ['v', many1 CharClass.hexDigit, '.', many1 futureChar]

/-- An address in square brackets. -/
def bracketed : Rule := .sequence ['[', .choice [ipv6, ipvFuture], ']']

end Address

end HttpFields
