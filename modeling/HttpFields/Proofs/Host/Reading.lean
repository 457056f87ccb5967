import HttpFields.Proofs.Host.Ipv6
import HttpFields.Reader

/-!
# `HttpFields.Proofs.Host.Reading` — how a host is read

A host is accepted as a whole and then read again for its name, with the port behind it. One lemma says what comes of
both, so that a statement about hosts is one about the match of the name and the text behind it.

* `Host.accepts_grammar_iff`, `Host.read_eq_some_iff` — the name is matched, and a port part is left.
* `parse?_bracketed_iff` — a text in square brackets is a host exactly when it is an address.
-/

namespace HttpFields

namespace Host

open Rule

/-! ## The name and the port part -/

/-- What may follow the name of a host: nothing, or a colon and digits. -/
def IsPortPart (rest : Text) : Prop := rest = [] ∨ ∃ ds : Text, (∀ c ∈ ds, c.isDigit = true) ∧ rest = ':' :: ds

/-- The port that a port part stands for. There is none without digits. -/
def StandsFor (rest : Text) (port : Option UInt16) : Prop :=
  (rest = [] ∨ rest = [':']) ∧ port = none ∨
    ∃ ds p, ds ≠ [] ∧ (∀ c ∈ ds, c.isDigit = true) ∧ rest = ':' :: ds ∧ Decimal.value ds = p.toNat ∧ port = some p

theorem accepts_portPart_iff {rest : Text} :
    (optional (.sequence [':', many CharClass.digit])).accepts rest = true ↔ IsPortPart rest := by
  rw [accepts_optional_iff, accepts_sequence_cons_iff]
  apply or_congr_right
  constructor
  · rintro ⟨m, hm, hds⟩
    refine ⟨m.rest, fun c hc => ?_, ?_⟩
    · rw [← CharClass.contains_digit]
      exact CharClass.accepts_many_rule_iff.mp (accepts_sequence_singleton_iff.mp hds) c hc
    · rw [← taken_append_rest hm, derives_terminal_iff.mp (derives_of_parse? hm)]
      rfl
  · rintro ⟨ds, hds, rfl⟩
    refine ⟨⟨[':'], ds⟩, Takes.terminal ':' ds, accepts_sequence_singleton_iff.mpr ?_⟩
    apply CharClass.accepts_many_rule_iff.mpr
    intro c hc
    rw [CharClass.contains_digit]
    exact hds c hc

/-- A host is accepted if a port part is left behind its name. -/
theorem accepts_grammar_iff {v : Text} :
    grammar.accepts v = true ↔ ∃ m, name.parse? v = some m ∧ IsPortPart m.rest := by
  rw [grammar, accepts_sequence_cons_iff]
  simp only [accepts_sequence_singleton_iff, accepts_portPart_iff]

theorem standsFor_nil_iff {port : Option UInt16} : StandsFor [] port ↔ port = none := by
  constructor
  · rintro (⟨-, h⟩ | ⟨ds, p, -, -, h, -, -⟩)
    · exact h
    · cases h
  · exact fun h => Or.inl ⟨Or.inl rfl, h⟩

theorem standsFor_colon_iff {port : Option UInt16} : StandsFor [':'] port ↔ port = none := by
  constructor
  · rintro (⟨-, h⟩ | ⟨ds, p, hne, -, h, -, -⟩)
    · exact h
    · exact absurd (List.cons.inj h).2.symm hne
  · exact fun h => Or.inl ⟨Or.inr rfl, h⟩

theorem standsFor_cons_iff {d : Char} {ds : Text} (hds : ∀ c ∈ d :: ds, c.isDigit = true) {port : Option UInt16} :
    StandsFor (':' :: d :: ds) port ↔ ∃ p, Decimal.toUInt16? (d :: ds) = some p ∧ port = some p := by
  have hnumeral : Decimal.IsNumeral (d :: ds) := ⟨List.cons_ne_nil d ds, hds⟩
  constructor
  · rintro (⟨h | h, -⟩ | ⟨ds', p, -, -, h, hvalue, hport⟩)
    · cases h
    · cases h
    · obtain rfl : d :: ds = ds' := (List.cons.inj h).2
      exact ⟨p, hnumeral.toUInt16?_eq_some_iff.mpr hvalue, hport⟩
  · rintro ⟨p, hp, hport⟩
    exact Or.inr ⟨d :: ds, p, hnumeral.1, hds, rfl, hnumeral.toUInt16?_eq_some_iff.mp hp, hport⟩

/-- A text that stands for a port, or for none, is a port part. -/
theorem StandsFor.isPortPart {rest : Text} {port : Option UInt16} (h : StandsFor rest port) : IsPortPart rest := by
  rcases h with ⟨rfl | rfl, -⟩ | ⟨ds, p, -, hds, rfl, -, -⟩
  · exact Or.inl rfl
  · exact Or.inr ⟨[], List.forall_mem_nil _, rfl⟩
  · exact Or.inr ⟨ds, hds, rfl⟩

private theorem mk_eq_iff {taken host : Text} {port : Option UInt16} :
    (Reading.accept (⟨taken, none⟩ : Host)).value = some ⟨host, port⟩ ↔ host = taken ∧ port = none := by
  rw [Reading.accept, Option.some.injEq, mk.injEq]
  exact and_congr eq_comm eq_comm

/-- **How a host is read.** The name is what it matches at the start, and the port what is left stands for. -/
theorem read_eq_some_iff {v : Text} {h : Host} :
    (read v).value = some h ↔ ∃ m, name.parse? v = some m ∧ h.host = m.taken ∧ StandsFor m.rest h.port := by
  rw [read, Reading.value_require_bind_eq_some_iff, Reading.value_bind_eq_some_iff, accepts_grammar_iff]
  simp only [Reading.value_lift]
  cases name.parse? v with
  | none => simp only [reduceCtorEq, false_and, exists_false, and_false]
  | some m =>
    simp only [Option.some.injEq, exists_eq_left']
    obtain ⟨taken, rest⟩ := m
    obtain ⟨host, port⟩ := h
    by_cases hport : IsPortPart rest
    · rw [and_iff_right hport]
      -- no port behind the name, a colon alone, or a colon and digits
      rcases hport with rfl | ⟨_ | ⟨d, ds⟩, hds, rfl⟩
      · exact mk_eq_iff.trans (and_congr_right fun _ => standsFor_nil_iff.symm)
      · exact mk_eq_iff.trans (and_congr_right fun _ => standsFor_colon_iff.symm)
      · rw [standsFor_cons_iff hds]
        show (Reading.expect (Decimal.toUInt16? (d :: ds)) _ >>= _).value = _ ↔ _
        rw [Reading.value_bind_eq_some_iff]
        simp only [Reading.value_expect, Reading.pure_eq_accept, Reading.value_accept, Option.some.injEq, mk.injEq]
        constructor
        · rintro ⟨p, hp, htaken, hport⟩
          exact ⟨htaken.symm, p, hp, hport.symm⟩
        · rintro ⟨htaken, p, hp, hport⟩
          exact ⟨p, hp, htaken.symm, hport.symm⟩
    · constructor
      · exact fun h => absurd h.1 hport
      · exact fun h => absurd h.2.isPortPart hport

/-- A host that is accepted is read, unless its port is out of range. -/
theorem isClear_read {v : Text} (h : grammar.accepts v = true) : (read v).IsClear (.portOutOfRange v) := by
  obtain ⟨m, hm, -⟩ := accepts_grammar_iff.mp h
  rw [read, h, Reading.require_true, Reading.accept_bind, hm, Reading.lift_some, Reading.accept_bind]
  split
  · exact (Reading.isClear_expect _ _).bind fun port => Reading.isClear_accept _ _
  · exact Reading.isClear_accept _ _

end Host

/-! ## Addresses in square brackets -/

namespace Address

open Rule

theorem not_mem_bracket_of_mem_portPart {rest : Text} (h : Host.IsPortPart rest) : ']' ∉ rest := by
  rcases h with rfl | ⟨ds, hds, rfl⟩
  · exact List.not_mem_nil
  · intro hmem
    rcases List.mem_cons.mp hmem with h | h
    · exact absurd h (by decide)
    · exact absurd (hds ']' h) (by decide)

/-- The last character of a text belongs to its end, unless the end is empty. -/
theorem eq_nil_of_append_eq {front rest s : Text} {d : Char} (h : front ++ rest = s ++ [d]) (hd : d ∉ rest) :
    rest = [] := by
  apply Classical.byContradiction
  intro hne
  have hlast : (front ++ rest).getLast? = some d := by rw [h, List.getLast?_concat]
  rw [List.getLast?_append_of_ne_nil front hne] at hlast
  exact hd (List.mem_of_getLast? hlast)

theorem isAddress_of_derives_bracketed {t : Text} (h : Derives bracketed ('[' :: (t ++ [']']))) :
    IsIpv6 t ∨ IsIpvFuture t := by
  obtain ⟨a, ha, heq⟩ := exists_address_of_derives h
  have htail : t ++ [']'] = a ++ [']'] := (List.cons.inj heq).2
  rw [(List.append_inj' htail rfl).1]
  exact ha

/-- A text in square brackets has the name of a host at its start, and a port part behind it, only if the name is all
    of it and the brackets hold an address. -/
theorem of_parse?_name_bracketed {t : Text} {m : Match} (h : Host.name.parse? ('[' :: (t ++ [']'])) = some m)
    (hport : Host.IsPortPart m.rest) : m = ⟨'[' :: (t ++ [']']), []⟩ ∧ (IsIpv6 t ∨ IsIpvFuture t) := by
  have hwhole : m.taken ++ m.rest = '[' :: t ++ [']'] := taken_append_rest h
  have hrest : m.rest = [] := eq_nil_of_append_eq hwhole (not_mem_bracket_of_mem_portPart hport)
  have htaken : m.taken = '[' :: (t ++ [']']) := by
    rw [hrest, List.append_nil] at hwhole
    exact hwhole
  rw [Host.name, parse?_choice_cons] at h
  rcases Option.or_eq_some_iff.mp h with h | ⟨-, h⟩
  · have hder := derives_of_parse? h
    rw [htaken] at hder
    exact ⟨congr (congrArg Match.mk htaken) hrest, isAddress_of_derives_bracketed hder⟩
  · -- a name without brackets takes nothing of the text
    have hnone : (choice [Host.registeredName]).parse? ([] ++ '[' :: (t ++ [']'])) =
        some ⟨[], '[' :: (t ++ [']'])⟩ := by
      rw [parse?_append_cons (by decide)]
      rfl
    rw [List.nil_append, h] at hnone
    obtain rfl := Option.some.inj hnone
    cases hrest

theorem takes_name_bracketed {t : Text} (h : IsIpv6 t ∨ IsIpvFuture t) :
    Host.name.Takes ('[' :: (t ++ [']'])) [] :=
  (takes_bracketed h []).head

end Address

/-- **Addresses in square brackets.** A text in square brackets is read as a host exactly when it is an IPv6 address or
    one of a format to come; the host is then the whole text, brackets included, and there is no port. -/
theorem parse?_bracketed_iff (t : Text) :
    ((∃ h, Field.host.parse? ('[' :: (t ++ [']'])) = some h) ↔ Address.IsIpv6 t ∨ Address.IsIpvFuture t) ∧
      ∀ h, Field.host.parse? ('[' :: (t ++ [']'])) = some h → h = ⟨'[' :: (t ++ [']']), none⟩ := by
  constructor
  · constructor
    · rintro ⟨h, hparse⟩
      obtain ⟨m, hm, -, hport⟩ := Host.read_eq_some_iff.mp hparse
      exact (Address.of_parse?_name_bracketed hm hport.isPortPart).2
    · intro ht
      refine ⟨⟨'[' :: (t ++ [']']), none⟩, Host.read_eq_some_iff.mpr ⟨⟨'[' :: (t ++ [']']), []⟩, ?_, rfl, ?_⟩⟩
      · have htake := Address.takes_name_bracketed ht
        rwa [Rule.Takes, List.append_nil] at htake
      · exact Host.standsFor_nil_iff.mpr rfl
  · intro h hparse
    obtain ⟨m, hm, hhost, hport⟩ := Host.read_eq_some_iff.mp hparse
    obtain ⟨rfl, -⟩ := Address.of_parse?_name_bracketed hm hport.isPortPart
    obtain ⟨host, port⟩ := h
    exact congr (congrArg Host.mk hhost) (Host.standsFor_nil_iff.mp hport)

/-- An IPv4 address behind a gap, whose first octet could be taken for a group. -/
example : Field.host.parse? "[1::ffff:192.0.2.1]".toList = some ⟨"[1::ffff:192.0.2.1]".toList, none⟩ := by
  decide +kernel

end HttpFields
