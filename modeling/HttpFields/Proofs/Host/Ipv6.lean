import HttpFields.Proofs.Host.Gap
import HttpFields.Proofs.Token

/-!
# `HttpFields.Proofs.Host.Ipv6` — the nine alternatives of an IPv6 address

The grammar has one alternative for an address without a gap and eight for the numbers of groups that may stand behind
one, and matching never goes back from the one that it has taken. That is safe because the eight form a `Ladder`: each
asks for one group less behind the gap than the one before it, so one that is tried too early runs out of groups and
fails, and is never content with a part of the address.

* `Ladder`, `ladder_gapped` — the alternatives with a gap.
* `isIpv6_of_derives`, `takes_ipv6` — the rule stands for IPv6 addresses only, and takes each of them.
* `isAddress_of_derives`, `takes_address` — what may stand between square brackets.
* `exists_address_of_derives`, `takes_bracketed`, `accepts_bracketed_iff` — addresses in square brackets, whatever follows
  them.
-/

namespace HttpFields.Address

open Rule

/-! ## The ladder -/

/-- Alternatives around a gap, each of which asks for one group less behind the gap than the one before it and allows
    for one more in front of it. -/
inductive Ladder : List Rule → Prop where
  | nil : Ladder []
  | cons {count : Nat} {front back : List Rule} {rs : List Rule} :
      Opens count front → Closes rs.length back → count + rs.length = 7 → Ladder rs →
      Ladder (.sequence (front ++ gap :: back) :: rs)

/-- What the alternatives of a ladder stand for are addresses around a gap. -/
theorem Ladder.exists_of_derives {rs : List Rule} (h : Ladder rs) {r : Rule} (hr : r ∈ rs) {t : Text}
    (ht : Derives r t) : ∃ b a m n, IsGroups m b ∧ IsTail n a ∧ m + n ≤ 7 ∧ t = b ++ ':' :: ':' :: a := by
  induction h with
  | nil => exact absurd hr List.not_mem_nil
  | @cons count front back rs hopens hcloses hcount _ ih =>
    rcases List.mem_cons.mp hr with rfl | hr
    · obtain ⟨b, u, rfl, hb, hu⟩ := derives_sequence_append_iff.mp ht
      obtain ⟨g, a, rfl, hg, ha⟩ := derives_sequence_cons_iff.mp hu
      obtain ⟨m, hm, hb⟩ := hopens.isGroups b hb
      rw [derives_literal_iff.mp hg]
      exact ⟨b, a, m, rs.length, hb, hcloses.isTail a ha, by omega, rfl⟩
    · exact ih hr

/-- **Down the ladder.** An address with a gap is taken by the alternative that asks for as many groups behind the gap
    as it has, for all alternatives before that fail. -/
theorem Ladder.takes {rs : List Rule} (h : Ladder rs) {gs : List Text} (hgs : ∀ g ∈ gs, IsGroup g) {n : Nat} {a : Text}
    (ha : IsTail n a) (hle : gs.length + n ≤ 7) (hlt : n < rs.length) :
    (choice rs).Takes ([':'].intercalate gs ++ ':' :: ':' :: a) [] := by
  induction h with
  | nil => exact absurd hlt (Nat.not_lt_zero n)
  | @cons count front back rs hopens hcloses hcount _ ih =>
    have hgap : gap.Takes [':', ':'] a := parse?_literal_append [':', ':'] a
    rw [List.length_cons] at hlt
    rcases Nat.lt_or_eq_of_le (Nat.le_of_lt_succ hlt) with hlt | rfl
    · -- more groups are asked for behind the gap than there are: if the gap is reached at all, they run out
      refine Takes.tail ?_ (ih hlt)
      rw [List.append_nil]
      rcases Nat.lt_or_ge count gs.length with hmany | hfew
      · exact hopens.parse?_eq_none gs hgs hmany back a
      · rw [(hopens.takes gs hgs hfew a).parse?_sequence_append, parse?_sequence_cons]
        show Option.map _ (Option.bind (gap.parse? ([':', ':'] ++ a)) _) = none
        rw [hgap, Option.bind_some, hcloses.parse?_eq_none n a ha hlt]
        rfl
    · -- as many groups are asked for as there are
      apply Takes.head
      have hback : (sequence (gap :: back)).Takes ([':', ':'] ++ a) [] := by
        refine Takes.cons ?_ (hcloses.takes a ha)
        rw [List.append_nil]
        exact hgap
      refine Takes.append ?_ hback
      rw [List.append_nil]
      exact hopens.takes gs hgs (by omega) a

theorem ladder_gapped : Ladder [
    .sequence [gap, groupsBefore 5, lastGroups],
    .sequence [optional hexGroup, gap, groupsBefore 4, lastGroups],
    .sequence [groupsUpTo 1, gap, groupsBefore 3, lastGroups],
    .sequence [groupsUpTo 2, gap, groupsBefore 2, lastGroups],
    .sequence [groupsUpTo 3, gap, hexGroup, ':', lastGroups],
    .sequence [groupsUpTo 4, gap, lastGroups],
    .sequence [groupsUpTo 5, gap, hexGroup],
    .sequence [groupsUpTo 6, gap]] :=
  .cons opens_nil (closes_groupsBefore 5) rfl <|
  .cons opens_optional (closes_groupsBefore 4) rfl <|
  .cons (opens_groupsUpTo 1) (closes_groupsBefore 3) rfl <|
  .cons (opens_groupsUpTo 2) (closes_groupsBefore 2) rfl <|
  .cons (opens_groupsUpTo 3) closes_hexGroup_lastGroups rfl <|
  .cons (opens_groupsUpTo 4) closes_lastGroups rfl <|
  .cons (opens_groupsUpTo 5) closes_hexGroup rfl <|
  .cons (opens_groupsUpTo 6) closes_nil rfl .nil

/-! ## The alternative without a gap -/

theorem parse?_lastGroups_eq_none_of_colon (t : Text) : lastGroups.parse? (':' :: t) = none := by
  refine parse?_lastGroups_eq_none ?_ (parse?_twoGroups_eq_none ?_)
  · have hoctet : octet.parse? ([] ++ ':' :: t) = none := by
      rw [parse?_append_cons (by decide), Option.map_eq_none_iff]
      decide
    rw [List.nil_append] at hoctet
    rw [ipv4, parse?_sequence_cons, hoctet]
    rfl
  · exact parse?_groupColon_eq_none_of_head (head_colon t)

/-- The seventh group of an address is not the last but one if a gap follows it. -/
theorem parse?_lastGroups_eq_none_of_gap {g : Text} (hg : IsGroup g) : lastGroups.parse? (g ++ [':', ':']) = none := by
  refine parse?_lastGroups_eq_none (parse?_ipv4_eq_none ?_) ?_
  · simp [dot_not_mem_of_isGroup hg]
  · have htake : hexGroup.parse? (g ++ [':', ':']) = some ⟨g, [':', ':']⟩ :=
      takes_hexGroup_cons hg not_isHexDigit_colon [':']
    have hnone : (sequence [terminal ':', hexGroup]).parse? [':', ':'] = none := parse?_colonGroup_eq_none []
    rw [parse?_sequence_cons, htake, Option.bind_some, hnone]
    rfl

theorem parse?_noGap_eq_none {gs : List Text} (hgs : ∀ g ∈ gs, IsGroup g) {n : Nat} {a : Text} (ha : IsTail n a)
    (hle : gs.length + n ≤ 7) :
    (sequence [groupsBefore 6, lastGroups]).parse? ([':'].intercalate gs ++ ':' :: ':' :: a) = none := by
  rcases List.eq_nil_or_concat gs with rfl | ⟨gs, g, rfl⟩
  · exact parse?_leadLast_eq_none hgs (parse?_groupColon_eq_none_of_head (head_colon (':' :: a)))
      (parse?_lastGroups_eq_none_of_colon (':' :: a)) (Nat.zero_le 6)
  · rw [List.concat_eq_append] at hgs hle ⊢
    have hlen : (gs ++ [g]).length = gs.length + 1 := List.length_append
    rcases Nat.lt_or_ge gs.length 6 with hlt | hge
    · -- the groups run out before there are six, or right at the second colon
      have htext : [':'].intercalate (gs ++ [g]) ++ ':' :: ':' :: a = lead (gs ++ [g]) ++ ':' :: a := by
        rw [intercalate_append_singleton, lead_append, lead_cons]
        simp [lead]
      rw [htext]
      exact parse?_leadLast_eq_none hgs (parse?_groupColon_eq_none_of_head (head_colon a))
        (parse?_lastGroups_eq_none_of_colon a) (by omega)
    · -- seven groups leave none for behind the gap
      have hsix : gs.length = 6 := by omega
      have hzero : n = 0 := by omega
      have hnil : a = [] := by
        rcases isTail_iff.mp (hzero ▸ ha) with ⟨-, h⟩ | ⟨gs', k, q, -, ⟨rfl, -⟩ | ⟨rfl, -⟩, h, -⟩
        · exact h
        · exact absurd h (by omega)
        · exact absurd h (by omega)
      obtain ⟨hgs, hg⟩ := List.forall_mem_append.mp hgs
      have hg : IsGroup g := List.forall_mem_singleton.mp hg
      have htake : (groupsBefore 6).parse? (lead gs ++ (g ++ [':', ':'])) = some ⟨lead gs, g ++ [':', ':']⟩ := by
        rw [← hsix]
        exact takes_groupsBefore hgs _
      rw [hnil, intercalate_append_singleton, List.append_assoc, parse?_sequence_cons, htake, Option.bind_some,
        parse?_sequence_cons, parse?_lastGroups_eq_none_of_gap hg]
      rfl

/-! ## IPv6 addresses and those to come -/

theorem isIpv6_of_derives {t : Text} (h : Derives ipv6 t) : IsIpv6 t := by
  obtain ⟨r, hr, h⟩ := derives_choice_iff.mp h
  rcases List.mem_cons.mp hr with rfl | hr
  · exact Or.inl ((closes_groupsBefore 6).isTail t h)
  · exact Or.inr (ladder_gapped.exists_of_derives hr h)

/-- **No address is lost.** The nine alternatives take every IPv6 address as a whole. -/
theorem takes_ipv6 {t : Text} (h : IsIpv6 t) : ipv6.Takes t [] := by
  rcases h with h | ⟨_, a, m, n, ⟨gs, rfl, hgs, rfl⟩, ha, hle, rfl⟩
  · exact Takes.head ((closes_groupsBefore 6).takes t h)
  · refine Takes.tail ?_ (ladder_gapped.takes hgs ha hle (Nat.lt_succ_of_le (Nat.le_trans (Nat.le_add_left n _) hle)))
    rw [List.append_nil]
    exact parse?_noGap_eq_none hgs ha hle

theorem contains_futureChar {c : Char} : futureChar.contains c = true ↔ IsFutureChar c := by
  rw [futureChar, CharClass.unreserved, CharClass.subDelimiter]
  simp only [CharClass.contains_append, CharClass.contains_alpha, CharClass.contains_digit, Bool.or_eq_true,
    CharClass.contains_ofText, IsFutureChar, Char.isAlphanum, List.mem_singleton, or_assoc]

theorem oneOf_futureChar : OneOf IsFutureChar futureChar := (oneOf_class _).congr contains_futureChar

theorem isIpvFuture_of_derives {t : Text} (h : Derives ipvFuture t) : IsIpvFuture t := by
  obtain ⟨_, rfl, hbehind⟩ := derives_terminal_cons_iff.mp h
  obtain ⟨version, address, rfl, hversion, haddress⟩ := derives_delimited_iff.mp hbehind
  obtain ⟨hne, hversion⟩ := oneOf_hexDigit.derives_many1_iff.mp hversion
  obtain ⟨hne', haddress⟩ := oneOf_futureChar.derives_many1_iff.mp (derives_sequence_singleton_iff.mp haddress)
  exact ⟨version, address, hne, hversion, hne', haddress, rfl⟩

theorem takes_ipvFuture {t : Text} (h : IsIpvFuture t) : ipvFuture.Takes t [] := by
  obtain ⟨version, address, hne, hversion, hne', haddress, rfl⟩ := h
  have haddr : (many1 futureChar.rule).Takes address [] := oneOf_futureChar.takes_many1 hne' haddress nofun
  have hver : (many1 CharClass.hexDigit.rule).Takes version ('.' :: address ++ []) := by
    apply oneOf_hexDigit.takes_many1 hne hversion
    rintro c ⟨⟩
    exact not_isHexDigit_dot
  exact .cons (.terminal 'v' _) (.cons hver (.cons (.terminal '.' _) haddr.singleton))

/-- No address to come can be taken for an IPv6 address, not even in part. -/
theorem parse?_ipv6_eq_none {t : Text} (h : IsIpvFuture t) : ipv6.parse? t = none := by
  obtain ⟨version, address, -, -, -, -, rfl⟩ := h
  have hnone : ipv6.parse? ([] ++ 'v' :: (version ++ '.' :: address)) = none := by
    rw [parse?_append_cons (by decide), Option.map_eq_none_iff]
    decide
  exact hnone

theorem isAddress_of_derives {t : Text} (h : Derives (.choice [ipv6, ipvFuture]) t) : IsIpv6 t ∨ IsIpvFuture t := by
  rcases derives_choice_pair_iff.mp h with h | h
  · exact Or.inl (isIpv6_of_derives h)
  · exact Or.inr (isIpvFuture_of_derives h)

theorem takes_address {t : Text} (h : IsIpv6 t ∨ IsIpvFuture t) : (choice [ipv6, ipvFuture]).Takes t [] := by
  rcases h with h | h
  · exact Takes.head (takes_ipv6 h)
  · refine Takes.tail ?_ (Takes.head (takes_ipvFuture h))
    rw [List.append_nil]
    exact parse?_ipv6_eq_none h

/-! ## Addresses in square brackets -/

theorem exists_address_of_derives {x : Text} (h : Derives bracketed x) :
    ∃ a, (IsIpv6 a ∨ IsIpvFuture a) ∧ x = '[' :: (a ++ [']']) := by
  obtain ⟨u, rfl, hu⟩ := derives_terminal_cons_iff.mp h
  obtain ⟨a, v, rfl, ha, hnil⟩ := derives_delimited_iff.mp hu
  rw [derives_sequence_nil_iff.mp hnil]
  exact ⟨a, isAddress_of_derives ha, rfl⟩

/-- The closing bracket ends the address, so that nothing behind it can change the match. -/
theorem takes_bracketed {a : Text} (h : IsIpv6 a ∨ IsIpvFuture a) (rest : Text) :
    bracketed.Takes ('[' :: (a ++ [']'])) rest := by
  have hinner : (choice [ipv6, ipvFuture]).Takes a (']' :: rest) := (takes_address h).of_accepts (by decide) rest
  exact .cons (Takes.terminal '[' _) (.cons hinner (Takes.terminal ']' rest).singleton)

/-- The texts that the rule for addresses in square brackets matches in full. -/
theorem accepts_bracketed_iff {t : Text} :
    bracketed.accepts t = true ↔ ∃ a, (IsIpv6 a ∨ IsIpvFuture a) ∧ t = '[' :: (a ++ [']']) := by
  constructor
  · intro h
    exact exists_address_of_derives (derives_of_accepts h)
  · rintro ⟨a, ha, rfl⟩
    exact accepts_iff_takes.mpr (takes_bracketed ha [])

end HttpFields.Address
