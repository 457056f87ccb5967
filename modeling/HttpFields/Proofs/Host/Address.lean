import HttpFields.Decimal
import HttpFields.Host.Address
import HttpFields.Proofs.Abnf.Boundary
import HttpFields.Proofs.Abnf.OneOf

/-!
# `HttpFields.Proofs.Host.Address` — which texts are IP addresses

An IPv6 address is said here by counting. Its groups are joined by colons and are eight in all, where an IPv4 address at
the end counts for two; or a gap `::` stands for the groups that are missing, one at least.

* `IsIpv6`, `IsIpvFuture` — the addresses.
* `derives_hexGroup_iff`, `takes_hexGroup` — the groups of the grammar.
* `isIpv4_of_derives`, `takes_ipv4` — the IPv4 addresses of the grammar.
-/

namespace HttpFields.Address

open Rule

/-! ## Addresses by counting -/

/-- A hexadecimal digit, in either case. -/
def IsHexDigit (c : Char) : Prop := c.isDigit = true ∨ ('a' ≤ c ∧ c ≤ 'f') ∨ ('A' ≤ c ∧ c ≤ 'F')

/-- A group: one to four hexadecimal digits. -/
def IsGroup (g : Text) : Prop := 1 ≤ g.length ∧ g.length ≤ 4 ∧ ∀ c ∈ g, IsHexDigit c

/-- An octet: the numeral of a number up to 255, with no zero in front that it does not need. -/
def IsOctet (o : Text) : Prop := ∃ n, n ≤ 255 ∧ o = Decimal.digits n

/-- An IPv4 address: four octets with dots between them. -/
def IsIpv4 (q : Text) : Prop :=
  ∃ a b c d, IsOctet a ∧ IsOctet b ∧ IsOctet c ∧ IsOctet d ∧ q = a ++ '.' :: (b ++ '.' :: (c ++ '.' :: d))

/-- The given number of groups with colons between them. -/
def IsGroups (count : Nat) (b : Text) : Prop :=
  ∃ gs : List Text, gs.length = count ∧ (∀ g ∈ gs, IsGroup g) ∧ b = [':'].intercalate gs

/-- The given number of groups with colons between them, of which an IPv4 address may stand for the last two. -/
def IsTail (count : Nat) (a : Text) : Prop :=
  IsGroups count a ∨
    ∃ gs q, gs.length + 2 = count ∧ (∀ g ∈ gs, IsGroup g) ∧ IsIpv4 q ∧ a = [':'].intercalate (gs ++ [q])

/-- An IPv6 address: eight groups, or at most seven around a gap. -/
def IsIpv6 (t : Text) : Prop :=
  IsTail 8 t ∨ ∃ b a m n, IsGroups m b ∧ IsTail n a ∧ m + n ≤ 7 ∧ t = b ++ ':' :: ':' :: a

/-- A character of an address in a format to come. -/
def IsFutureChar (c : Char) : Prop :=
  c.isAlphanum = true ∨ c ∈ ['-', '.', '_', '~'] ∨
    c ∈ ['!', '$', '&', '\x27', '(', ')', '*', '+', ',', ';', '='] ∨ c = ':'

/-- An address in a format to come: its version in hexadecimal digits, and its text. -/
def IsIpvFuture (t : Text) : Prop :=
  ∃ version address, version ≠ [] ∧ (∀ c ∈ version, IsHexDigit c) ∧ address ≠ [] ∧ (∀ c ∈ address, IsFutureChar c) ∧
    t = 'v' :: (version ++ '.' :: address)

/-! ## Groups -/

theorem contains_hexDigit {c : Char} : CharClass.hexDigit.contains c = true ↔ IsHexDigit c := by
  rw [CharClass.hexDigit, CharClass.contains_append, CharClass.contains_append, CharClass.contains_digit,
    Bool.or_eq_true, Bool.or_eq_true, CharClass.contains_span, CharClass.contains_span, IsHexDigit, or_assoc]
  exact or_congr_right or_comm

theorem not_isHexDigit_colon : ¬ IsHexDigit ':' := by
  rw [← contains_hexDigit]
  decide

theorem not_isHexDigit_dot : ¬ IsHexDigit '.' := by
  rw [← contains_hexDigit]
  decide

/-- No group goes on with a colon. -/
theorem head_colon (t : Text) : ∀ c ∈ (':' :: t).head?, ¬ IsHexDigit c := by
  rintro c ⟨⟩
  exact not_isHexDigit_colon

theorem IsGroup.ne_nil {g : Text} (h : IsGroup g) : g ≠ [] := List.ne_nil_of_length_pos h.1

theorem IsGroup.not_mem {g : Text} {d : Char} (h : IsGroup g) (hd : ¬ IsHexDigit d) : d ∉ g :=
  fun hmem => hd (h.2.2 d hmem)

theorem oneOf_hexDigit : OneOf IsHexDigit CharClass.hexDigit := (oneOf_class _).congr contains_hexDigit

theorem derives_hexGroup_iff {g : Text} : Derives hexGroup g ↔ IsGroup g := by
  rw [hexGroup, oneOf_hexDigit.derives_repetition_iff]
  constructor
  · rintro ⟨hg, hmin, hmax⟩
    exact ⟨hmin, hmax 4 rfl, hg⟩
  · rintro ⟨hmin, hmax, hg⟩
    refine ⟨hg, hmin, ?_⟩
    rintro n ⟨⟩
    exact hmax

theorem takes_hexGroup {g rest : Text} (hg : IsGroup g) (hrest : ∀ c ∈ rest.head?, ¬ IsHexDigit c) :
    hexGroup.Takes g rest := by
  obtain ⟨hmin, hmax, hdigits⟩ := hg
  refine oneOf_hexDigit.takes_repetition hdigits hmin ?_ (Or.inr hrest)
  rintro n ⟨⟩
  exact hmax

theorem takes_hexGroup_cons {g : Text} {c : Char} (hg : IsGroup g) (hc : ¬ IsHexDigit c) (rest : Text) :
    hexGroup.Takes g (c :: rest) := by
  apply takes_hexGroup hg
  rintro d ⟨⟩
  exact hc

theorem takes_hexGroup_nil {g : Text} (hg : IsGroup g) : hexGroup.Takes g [] :=
  takes_hexGroup hg fun _ h => absurd h (by simp)

theorem parse?_hexGroup_eq_none {s : Text} (h : ∀ c ∈ s.head?, ¬ IsHexDigit c) : hexGroup.parse? s = none :=
  oneOf_hexDigit.parse?_repetition_eq_none Nat.one_pos h

theorem parse?_hexGroup_colon (t : Text) : hexGroup.parse? (':' :: t) = none := parse?_hexGroup_eq_none (head_colon t)

/-! ## IPv4 addresses -/

/-- Whether a text is an octet. -/
private def isOctet (s : Text) : Bool := Decimal.value s ≤ 255 && s = Decimal.digits (Decimal.value s)

private theorem isOctet_iff {s : Text} : isOctet s = true ↔ IsOctet s := by
  rw [isOctet, Bool.and_eq_true, decide_eq_true_eq, decide_eq_true_eq]
  constructor
  · exact fun h => ⟨Decimal.value s, h⟩
  · rintro ⟨n, hn, rfl⟩
    rw [Decimal.value_digits]
    exact ⟨hn, rfl⟩

private theorem oneOf_mem_digit : OneOf (· ∈ charactersBetween '0' '9') CharClass.digit.rule :=
  (oneOf_class CharClass.digit).congr fun {_} => CharClass.contains_span.trans mem_charactersBetween.symm

/-- A rule that stands for finitely many texts stands for octets if all of these are. -/
private theorem isOctet_of_sections (alphabets : List (List Char)) {rs : List Rule}
    (hrs : List.Forall₂ (fun alphabet r => OneOf (· ∈ alphabet) r) alphabets rs)
    (hall : alphabets.sections.all isOctet = true) {s : Text} (h : Derives (.sequence rs) s) : IsOctet s :=
  isOctet_iff.mp (List.all_eq_true.mp hall s (mem_sections_of_derives hrs h))

theorem isOctet_of_derives {o : Text} (h : Derives octet o) : IsOctet o := by
  have hdigit := oneOf_mem_digit
  -- one check for each alternative, over all of its texts
  obtain ⟨r, hr, h⟩ := derives_choice_iff.mp h
  simp only [List.mem_cons, List.not_mem_nil, or_false] at hr
  rcases hr with rfl | rfl | rfl | rfl | rfl
  · refine isOctet_of_sections [['2'], ['5'], charactersBetween '0' '5'] ?_ (by decide +kernel) h
    exact .cons (oneOf_mem_singleton '2') (.cons (oneOf_mem_singleton '5')
      (.cons (oneOf_mem_charactersBetween '0' '5') .nil))
  · refine isOctet_of_sections [['2'], charactersBetween '0' '4', charactersBetween '0' '9'] ?_ (by decide +kernel) h
    exact .cons (oneOf_mem_singleton '2') (.cons (oneOf_mem_charactersBetween '0' '4') (.cons hdigit .nil))
  · refine isOctet_of_sections [['1'], charactersBetween '0' '9', charactersBetween '0' '9'] ?_ (by decide +kernel) h
    exact .cons (oneOf_mem_singleton '1') (.cons hdigit (.cons hdigit .nil))
  · refine isOctet_of_sections [charactersBetween '1' '9', charactersBetween '0' '9'] ?_ (by decide +kernel) h
    exact .cons (oneOf_mem_charactersBetween '1' '9') (.cons hdigit .nil)
  · refine isOctet_of_sections [charactersBetween '0' '9'] (.cons hdigit .nil) (by decide +kernel) ?_
    exact derives_sequence_singleton_iff.mpr h

/-- What every octet is, checked on the 256 of them. -/
theorem forall_isOctet {P : Text → Prop} (h : ∀ n : Fin 256, P (Decimal.digits n)) {o : Text} (ho : IsOctet o) : P o := by
  obtain ⟨n, hn, rfl⟩ := ho
  exact h ⟨n, Nat.lt_succ_of_le hn⟩

theorem takes_octet_nil {o : Text} (ho : IsOctet o) : octet.Takes o [] :=
  accepts_iff_takes.mp (forall_isOctet (P := fun o => octet.accepts o = true) (by decide +kernel) ho)

theorem takes_octet_dot {o : Text} (ho : IsOctet o) (rest : Text) : octet.Takes o ('.' :: rest) :=
  (takes_octet_nil ho).of_accepts (by decide) rest

theorem IsOctet.isGroup {o : Text} (ho : IsOctet o) : IsGroup o := by
  refine derives_hexGroup_iff.mp (derives_of_accepts ?_)
  exact forall_isOctet (P := fun o => hexGroup.accepts o = true) (by decide +kernel) ho

theorem isIpv4_of_derives {q : Text} (h : Derives ipv4 q) : IsIpv4 q := by
  obtain ⟨a, _, rfl, ha, h⟩ := derives_delimited_iff.mp h
  obtain ⟨b, _, rfl, hb, h⟩ := derives_delimited_iff.mp h
  obtain ⟨c, d, rfl, hc, hd⟩ := derives_delimited_iff.mp h
  have hd := derives_sequence_singleton_iff.mp hd
  exact ⟨a, b, c, d, isOctet_of_derives ha, isOctet_of_derives hb, isOctet_of_derives hc, isOctet_of_derives hd, rfl⟩

theorem takes_ipv4 {q : Text} (hq : IsIpv4 q) : ipv4.Takes q [] := by
  obtain ⟨a, b, c, d, ha, hb, hc, hd, rfl⟩ := hq
  have hlast : (sequence [octet]).Takes d [] := (takes_octet_nil hd).singleton
  have hc' := Takes.cons (takes_octet_dot hc _) (Takes.cons (Takes.terminal '.' _) hlast)
  have hb' := Takes.cons (takes_octet_dot hb _) (Takes.cons (Takes.terminal '.' _) hc')
  exact Takes.cons (takes_octet_dot ha _) (Takes.cons (Takes.terminal '.' _) hb')

/-- An IPv4 address is made of digits and dots. -/
theorem IsIpv4.isDigit_or_dot {q : Text} (h : IsIpv4 q) : ∀ c ∈ q, c.isDigit = true ∨ c = '.' := by
  have hoctet : ∀ o, IsOctet o → ∀ c ∈ o, c.isDigit = true ∨ c = '.' := by
    rintro o ⟨n, -, rfl⟩ c hc
    exact Or.inl (Decimal.isDigit_of_mem_digits hc)
  have hjoin : ∀ o rest, IsOctet o → (∀ c ∈ rest, c.isDigit = true ∨ c = '.') →
      ∀ c ∈ o ++ '.' :: rest, c.isDigit = true ∨ c = '.' := by
    intro o rest ho hrest
    exact List.forall_mem_append.mpr ⟨hoctet o ho, List.forall_mem_cons.mpr ⟨Or.inr rfl, hrest⟩⟩
  obtain ⟨a, b, c, d, ha, hb, hc, hd, rfl⟩ := h
  exact hjoin a _ ha (hjoin b _ hb (hjoin c _ hc (hoctet d hd)))

/-- There is no IPv4 address without dots. -/
theorem parse?_ipv4_eq_none {s : Text} (h : '.' ∉ s) : ipv4.parse? s = none := by
  rw [Option.eq_none_iff_forall_ne_some]
  intro m hm
  obtain ⟨a, b, c, d, -, -, -, -, hq⟩ := isIpv4_of_derives (derives_of_parse? hm)
  apply h
  rw [← taken_append_rest hm, hq]
  simp

end HttpFields.Address
