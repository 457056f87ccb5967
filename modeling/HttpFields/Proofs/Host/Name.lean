import HttpFields.Host.Basic
import HttpFields.Proofs.Host.Ipv6

/-!
# `HttpFields.Proofs.Host.Name` — the name of a host

A host is named by an address in square brackets or by a registered name. The two are told apart by the opening bracket,
which a registered name cannot have, and each of them ends in front of a colon: the one at its closing bracket, the other
because a colon is none of its characters. So the rule for a name takes a name as a whole, with or without a port behind
it, and what it takes from any text is a name that it takes again when it stands alone.

* `IsRegisteredName`, `IsName` — names without a grammar.
* `IsRegisteredName.append`, `isRegisteredName_of_isIpv4` — names put together, and IPv4 addresses as names.
* `isName_of_parse?`, `takes_name` — what the rule for a name takes.
* `accepts_name_iff` — the texts that it matches in full.
-/

namespace HttpFields.Host

open Rule Address

/-! ## Names without a grammar -/

/-- A character that may stand for itself in a registered name. -/
def IsNameChar (c : Char) : Prop :=
  c.isAlphanum = true ∨ c ∈ ['-', '.', '_', '~'] ∨ c ∈ ['!', '$', '&', '\x27', '(', ')', '*', '+', ',', ';', '=']

/-- A registered name: characters that stand for themselves, and percent signs with two hexadecimal digits behind
    them. -/
inductive IsRegisteredName : Text → Prop where
  | nil : IsRegisteredName []
  | plain {c : Char} {s : Text} : IsNameChar c → IsRegisteredName s → IsRegisteredName (c :: s)
  | encoded {a b : Char} {s : Text} :
      IsHexDigit a → IsHexDigit b → IsRegisteredName s → IsRegisteredName ('%' :: a :: b :: s)

/-- The name of a host: an address in square brackets, or a registered name. -/
def IsName (t : Text) : Prop :=
  (∃ a, (IsIpv6 a ∨ IsIpvFuture a) ∧ t = '[' :: (a ++ [']'])) ∨ IsRegisteredName t

theorem isNameChar_iff {c : Char} :
    IsNameChar c ↔ CharClass.unreserved.contains c = true ∨ CharClass.subDelimiter.contains c = true := by
  rw [CharClass.unreserved, CharClass.subDelimiter, CharClass.contains_append, CharClass.contains_append,
    CharClass.contains_alpha, CharClass.contains_digit, CharClass.contains_ofText, Bool.or_eq_true,
    CharClass.contains_ofText, ← Char.isAlphanum, IsNameChar, or_assoc]

instance (c : Char) : Decidable (IsNameChar c) := decidable_of_iff _ isNameChar_iff.symm

/-- No registered name starts with an opening bracket. -/
theorem IsRegisteredName.head_ne {t : Text} (h : IsRegisteredName t) : ∀ c ∈ t.head?, c ≠ '[' := by
  cases h with
  | nil => exact nofun
  | plain hc _ =>
    refine forall_head?_cons (P := (· ≠ '[')).mpr ?_
    intro hbracket
    rw [hbracket] at hc
    exact absurd hc (by decide)
  | encoded _ _ _ => exact forall_head?_cons.mpr (by decide)

theorem isRegisteredName_of_forall {t : Text} (h : ∀ c ∈ t, IsNameChar c) : IsRegisteredName t := by
  induction t with
  | nil => exact .nil
  | cons c t ih =>
    obtain ⟨hc, ht⟩ := List.forall_mem_cons.mp h
    exact .plain hc (ih ht)

/-- Two registered names are one when they are put together. -/
theorem IsRegisteredName.append {s t : Text} (hs : IsRegisteredName s) (ht : IsRegisteredName t) :
    IsRegisteredName (s ++ t) := by
  induction hs with
  | nil => exact ht
  | plain hc _ ih => exact .plain hc ih
  | encoded ha hb _ ih => exact .encoded ha hb ih

/-- An IPv4 address is a registered name. -/
theorem isRegisteredName_of_isIpv4 {q : Text} (h : Address.IsIpv4 q) : IsRegisteredName q := by
  apply isRegisteredName_of_forall
  intro c hc
  rcases h.isDigit_or_dot c hc with hdigit | rfl
  · exact Or.inl (by simp [Char.isAlphanum, hdigit])
  · exact Or.inr (Or.inl (by simp))

/-! ## The rules -/

theorem derives_percentEncoded {x : Text} (h : Derives percentEncoded x) :
    ∃ a b, IsHexDigit a ∧ IsHexDigit b ∧ x = ['%', a, b] := by
  obtain ⟨digits, rfl, hdigits⟩ := derives_terminal_cons_iff.mp h
  obtain ⟨_, _, rfl, hfirst, hsecond⟩ := derives_sequence_cons_iff.mp hdigits
  obtain ⟨a, ha, rfl⟩ := (oneOf_hexDigit.derives_iff _).mp hfirst
  obtain ⟨b, hb, rfl⟩ := (oneOf_hexDigit.derives_iff _).mp (derives_sequence_singleton_iff.mp hsecond)
  exact ⟨a, b, ha, hb, rfl⟩

theorem isRegisteredName_of_derives {t : Text} (h : Derives registeredName t) : IsRegisteredName t := by
  refine h.many_induction (P := IsRegisteredName) .nil ?_
  intro part t hpart ht
  obtain ⟨r, hr, hpart⟩ := derives_choice_iff.mp hpart
  simp only [List.mem_cons, List.not_mem_nil, or_false] at hr
  rcases hr with rfl | rfl | rfl
  · obtain ⟨c, hc, rfl⟩ := ((oneOf_class _).derives_iff part).mp hpart
    exact .plain (isNameChar_iff.mpr (Or.inl hc)) ht
  · obtain ⟨a, b, ha, hb, rfl⟩ := derives_percentEncoded hpart
    exact .encoded ha hb ht
  · obtain ⟨c, hc, rfl⟩ := ((oneOf_class _).derives_iff part).mp hpart
    exact .plain (isNameChar_iff.mpr (Or.inr hc)) ht

theorem parse?_percentEncoded_eq_none {s : Text} (h : ∀ c ∈ s.head?, c ≠ '%') : percentEncoded.parse? s = none := by
  rw [percentEncoded, parse?_sequence_cons, (oneOf_terminal '%').parse?_eq_none h]
  rfl

/-- A registered name ends at the end of the text or in front of a colon. -/
theorem takes_registeredName {t rest : Text} (h : IsRegisteredName t) (hrest : ∀ c ∈ rest.head?, c = ':') :
    registeredName.Takes t rest := by
  induction h with
  | nil =>
    have hnone (cls : CharClass) (hcls : cls.contains ':' = false) : cls.rule.parse? rest = none := by
      apply (oneOf_class cls).parse?_eq_none
      intro c hc
      rw [hrest c hc, hcls]
      exact Bool.false_ne_true
    have hpercent : percentEncoded.parse? rest = none := by
      apply parse?_percentEncoded_eq_none
      intro c hc
      rw [hrest c hc]
      decide
    refine .repetition_nil (Or.inr ?_)
    rw [parse?_choice_cons, parse?_choice_cons, parse?_choice_cons, hnone _ (by decide), hpercent,
      hnone _ (by decide)]
    rfl
  | @plain c s hc _ ih =>
    refine Takes.repetition_cons (x := [c]) (List.cons_ne_nil c []) nofun ?_ ih
    by_cases hunreserved : CharClass.unreserved.contains c = true
    · exact .head ((oneOf_class _).takes hunreserved _)
    · have hdelimiter := (isNameChar_iff.mp hc).resolve_left hunreserved
      refine .tail ?_ (.tail ?_ (.head ((oneOf_class _).takes hdelimiter _)))
      · exact (oneOf_class _).parse?_eq_none (forall_head?_cons.mpr hunreserved)
      · refine parse?_percentEncoded_eq_none (forall_head?_cons (P := (· ≠ '%')).mpr ?_)
        intro hpercent
        rw [hpercent] at hdelimiter
        exact absurd hdelimiter (by decide)
  | @encoded a b s ha hb _ ih =>
    refine Takes.repetition_cons (x := ['%', a, b]) (List.cons_ne_nil _ _) nofun (.tail ?_ (.head ?_)) ih
    · exact (oneOf_class _).parse?_eq_none (forall_head?_cons.mpr (by decide))
    · exact .cons (.terminal '%' _) (.cons (oneOf_hexDigit.takes ha _) (oneOf_hexDigit.takes hb _).singleton)

/-! ## Names -/

/-- **What is taken is a name**, whatever it is taken from. -/
theorem isName_of_parse? {v : Text} {m : Match} (h : name.parse? v = some m) : IsName m.taken := by
  rcases derives_choice_pair_iff.mp (derives_of_parse? h) with h | h
  · exact Or.inl (exists_address_of_derives h)
  · exact Or.inr (isRegisteredName_of_derives h)

/-- **A colon ends a name.** The rule for a name takes all of a name at the end of the text or in front of a colon, also
    if the name has colons of its own. -/
theorem takes_name {t rest : Text} (h : IsName t) (hrest : ∀ c ∈ rest.head?, c = ':') : name.Takes t rest := by
  rcases h with ⟨a, ha, rfl⟩ | h
  · exact .head (takes_bracketed ha rest)
  · refine .tail ?_ (.head (takes_registeredName h hrest))
    -- there is no opening bracket, be it at the start of the name or, if that is empty, behind it
    have hhead : ∀ c ∈ (t ++ rest).head?, c ≠ '[' := by
      cases t with
      | nil =>
        intro c hc
        rw [hrest c hc]
        decide
      | cons d t => exact h.head_ne
    rw [bracketed, parse?_sequence_cons, (oneOf_terminal '[').parse?_eq_none hhead]
    rfl

/-- A name is a registered name, or the rule for addresses in square brackets matches it in full. -/
theorem isName_iff {t : Text} : IsName t ↔ Address.bracketed.accepts t = true ∨ IsRegisteredName t := by
  rw [IsName, Address.accepts_bracketed_iff]

/-- **Names.** The texts that the rule for a name matches in full. -/
theorem accepts_name_iff {t : Text} : name.accepts t = true ↔ IsName t := by
  constructor
  · intro h
    exact isName_of_parse? (accepts_iff.mp h)
  · intro h
    exact accepts_iff_takes.mpr (takes_name h nofun)

end HttpFields.Host
