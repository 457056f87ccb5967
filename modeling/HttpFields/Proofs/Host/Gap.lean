import HttpFields.Proofs.Host.Address

/-!
# `HttpFields.Proofs.Host.Gap` — what stands around the gap of an address

The groups of an address with a gap are matched in two runs: those in front of the gap greedily, and behind it as many
as the alternative asks for. Each rule for one of the runs is described by the texts it stands for, those it takes, and
those it fails at since they have too few groups.

* `lead`, `trail`, `isTail_iff` — groups with their colons.
* `Opens`, `opens_groupsUpTo` — the rules in front of a gap.
* `Closes`, `closes_groupsBefore` — the rules behind it.
-/

namespace HttpFields.Address

open Rule

/-! ## Groups and the colons around them -/

/-- The groups with a colon behind each. -/
def lead (gs : List Text) : Text := gs.flatMap (· ++ [':'])

/-- The groups with a colon in front of each. -/
def trail (gs : List Text) : Text := gs.flatMap (':' :: ·)

theorem lead_append (gs gs' : List Text) : lead (gs ++ gs') = lead gs ++ lead gs' := List.flatMap_append

theorem trail_append (gs gs' : List Text) : trail (gs ++ gs') = trail gs ++ trail gs' := List.flatMap_append

theorem lead_cons (g : Text) (gs : List Text) : lead (g :: gs) = g ++ ':' :: lead gs := by
  rw [lead, List.flatMap_cons, List.append_assoc]
  rfl

theorem trail_cons (g : Text) (gs : List Text) : trail (g :: gs) = ':' :: (g ++ trail gs) := rfl

theorem intercalate_append_singleton (gs : List Text) (q : Text) : [':'].intercalate (gs ++ [q]) = lead gs ++ q := by
  induction gs with
  | nil => exact List.intercalate_singleton
  | cons g gs ih =>
    rw [List.cons_append, List.intercalate_cons_of_ne_nil (by simp), ih, lead_cons, List.append_assoc,
      List.append_assoc]
    rfl

theorem intercalate_cons (g : Text) (gs : List Text) : [':'].intercalate (g :: gs) = g ++ trail gs := by
  induction gs generalizing g with
  | nil => simp [trail]
  | cons g' gs ih =>
    rw [List.intercalate_cons_cons, ih, List.append_assoc]
    rfl

/-- What ends a list of groups, and for how many it counts. -/
def IsEnd (count : Nat) (q : Text) : Prop := count = 1 ∧ IsGroup q ∨ count = 2 ∧ IsIpv4 q

theorem isTail_iff {count : Nat} {a : Text} :
    IsTail count a ↔ count = 0 ∧ a = [] ∨
      ∃ gs k q, (∀ g ∈ gs, IsGroup g) ∧ IsEnd k q ∧ count = gs.length + k ∧ a = lead gs ++ q := by
  constructor
  · rintro (⟨gs, rfl, hgs, rfl⟩ | ⟨gs, q, rfl, hgs, hq, rfl⟩)
    · rcases List.eq_nil_or_concat gs with rfl | ⟨gs, g, rfl⟩
      · exact Or.inl ⟨rfl, rfl⟩
      · rw [List.concat_eq_append] at hgs ⊢
        obtain ⟨hgs, hg⟩ := List.forall_mem_append.mp hgs
        have hg : IsGroup g := List.forall_mem_singleton.mp hg
        exact Or.inr ⟨gs, 1, g, hgs, Or.inl ⟨rfl, hg⟩, List.length_append, intercalate_append_singleton gs g⟩
    · exact Or.inr ⟨gs, 2, q, hgs, Or.inr ⟨rfl, hq⟩, rfl, intercalate_append_singleton gs q⟩
  · rintro (⟨rfl, rfl⟩ | ⟨gs, k, q, hgs, ⟨rfl, hq⟩ | ⟨rfl, hq⟩, rfl, rfl⟩)
    · exact Or.inl ⟨[], rfl, List.forall_mem_nil _, rfl⟩
    · have hall : ∀ g ∈ gs ++ [q], IsGroup g :=
        List.forall_mem_append.mpr ⟨hgs, List.forall_mem_singleton.mpr hq⟩
      exact Or.inl ⟨gs ++ [q], List.length_append, hall, (intercalate_append_singleton gs q).symm⟩
    · exact Or.inr ⟨gs, q, rfl, hgs, hq, (intercalate_append_singleton gs q).symm⟩

/-- A group with the colon behind it. -/
abbrev groupColon : Rule := .sequence [hexGroup, ':']

theorem takes_groupColon {g : Text} (hg : IsGroup g) (rest : Text) : groupColon.Takes (g ++ [':']) rest :=
  Takes.cons (takes_hexGroup_cons hg not_isHexDigit_colon rest) (Takes.terminal ':' rest).singleton

theorem parse?_groupColon_eq_none {g rest : Text} (hg : IsGroup g) (hrest : ∀ c ∈ rest.head?, ¬ IsHexDigit c)
    (hcolon : ∀ c ∈ rest.head?, c ≠ ':') : groupColon.parse? (g ++ rest) = none := by
  have htake : hexGroup.parse? (g ++ rest) = some ⟨g, rest⟩ := takes_hexGroup hg hrest
  have hnone : (sequence [terminal ':']).parse? rest = none := by
    rw [parse?_sequence_cons, (oneOf_terminal ':').parse?_eq_none hcolon]
    rfl
  rw [parse?_sequence_cons, htake, Option.bind_some, hnone]
  rfl

theorem parse?_groupColon_eq_none_of_head {s : Text} (h : ∀ c ∈ s.head?, ¬ IsHexDigit c) :
    groupColon.parse? s = none := by
  rw [parse?_sequence_cons, parse?_hexGroup_eq_none h]
  rfl

/-- What ends a list of groups is not another group with a colon. -/
theorem IsEnd.parse?_groupColon_eq_none {count : Nat} {q : Text} (h : IsEnd count q) : groupColon.parse? q = none := by
  rcases h with ⟨-, hq⟩ | ⟨-, a, b, c, d, ha, -, -, -, rfl⟩
  · rw [← List.append_nil q]
    exact Address.parse?_groupColon_eq_none hq (fun _ h => absurd h (by simp)) fun _ h => absurd h (by simp)
  · refine Address.parse?_groupColon_eq_none ha.isGroup ?_ ?_
    · rintro e ⟨⟩
      exact not_isHexDigit_dot
    · rintro e ⟨⟩
      decide

theorem derives_groupsBefore {count : Nat} {s : Text} (h : Derives (groupsBefore count) s) :
    ∃ gs : List Text, gs.length = count ∧ (∀ g ∈ gs, IsGroup g) ∧ s = lead gs := by
  obtain ⟨parts, rfl, hparts, hmin, hmax⟩ := derives_repetition_iff.mp h
  have hlen : parts.length = count := Nat.le_antisymm (hmax count rfl) hmin
  clear h hmin hmax
  subst hlen
  induction parts with
  | nil => exact ⟨[], rfl, List.forall_mem_nil _, rfl⟩
  | cons part parts ih =>
    obtain ⟨hpart, hrest⟩ := List.forall_mem_cons.mp hparts
    obtain ⟨g, _, rfl, hg, hnil⟩ := derives_delimited_iff.mp hpart
    obtain ⟨gs, hlen, hgs, hs⟩ := ih hrest
    refine ⟨g :: gs, congrArg (· + 1) hlen, List.forall_mem_cons.mpr ⟨derives_hexGroup_iff.mp hg, hgs⟩, ?_⟩
    rw [derives_sequence_nil_iff.mp hnil, List.flatten_cons, hs, lead_cons, List.append_assoc]
    rfl

theorem takes_groupsBefore {gs : List Text} (hgs : ∀ g ∈ gs, IsGroup g) (rest : Text) :
    (groupsBefore gs.length).Takes (lead gs) rest := by
  induction gs with
  | nil => exact .repetition_nil (Or.inl rfl)
  | cons g gs ih =>
    obtain ⟨hg, hgs⟩ := List.forall_mem_cons.mp hgs
    have hne : g ++ [':'] ≠ [] := by simp
    have hmax : some (g :: gs).length ≠ some 0 := fun h => Nat.succ_ne_zero gs.length (Option.some.inj h)
    exact Takes.repetition_cons hne hmax (takes_groupColon hg _) (ih hgs)

/-- Where the groups with their colons run out, more of them cannot be taken. -/
theorem parse?_groupsBefore_eq_none {gs : List Text} (hgs : ∀ g ∈ gs, IsGroup g) {s : Text}
    (hs : groupColon.parse? s = none) {count : Nat} (hlt : gs.length < count) :
    (groupsBefore count).parse? (lead gs ++ s) = none := by
  induction gs generalizing count with
  | nil =>
    have hcount : count ≠ 0 := Nat.ne_of_gt hlt
    show (repetition groupColon count (some count)).parse? s = none
    rw [parse?_repetition, hs, if_neg hcount, if_neg fun h => hcount (Option.some.inj h)]
    exact ite_self none
  | cons g gs ih =>
    obtain ⟨hg, hgs⟩ := List.forall_mem_cons.mp hgs
    rw [List.length_cons] at hlt
    have htake : groupColon.parse? (lead (g :: gs) ++ s) = some ⟨g ++ [':'], lead gs ++ s⟩ := by
      have h := takes_groupColon hg (lead gs ++ s)
      rw [Takes, ← List.append_assoc] at h
      exact h
    have hrest : (groupsBefore (count - 1)).parse? (lead gs ++ s) = none := ih hgs (by omega)
    have hne : g ++ [':'] ≠ [] := by simp
    show (repetition groupColon count (some count)).parse? _ = none
    rw [parse?_repetition, htake]
    show (if _ then none else if some count = some 0 then _ else if g ++ [':'] = [] then _ else
      Option.map _ ((groupsBefore (count - 1)).parse? (lead gs ++ s))) = none
    rw [if_neg hne, hrest, if_neg fun h => absurd (Option.some.inj h) (by omega)]
    exact ite_self none

/-! ## In front of a gap -/

/-- The rules in front of a gap stand for at most so many groups, and take all of them where a gap follows. With more
    groups in front of it the gap is not reached. -/
structure Opens (count : Nat) (front : List Rule) : Prop where
  isGroups : ∀ b, Derives (.sequence front) b → ∃ m, m ≤ count ∧ IsGroups m b
  takes : ∀ gs : List Text, (∀ g ∈ gs, IsGroup g) → gs.length ≤ count → ∀ rest,
    (sequence front).Takes ([':'].intercalate gs) (':' :: ':' :: rest)
  parse?_eq_none : ∀ gs : List Text, (∀ g ∈ gs, IsGroup g) → count < gs.length → ∀ back rest,
    (sequence (front ++ gap :: back)).parse? ([':'].intercalate gs ++ ':' :: ':' :: rest) = none

theorem parse?_gap_eq_none {s : Text} (h : ∀ t, s ≠ ':' :: ':' :: t) : gap.parse? s = none := by
  rw [Option.eq_none_iff_forall_ne_some]
  intro m hm
  apply h m.rest
  rw [← taken_append_rest hm, taken_of_parse?_literal hm]
  rfl

theorem parse?_gapped_eq_none {front back : List Rule} {x rest : Text} (h : (sequence front).Takes x rest)
    (hgap : ∀ t, rest ≠ ':' :: ':' :: t) : (sequence (front ++ gap :: back)).parse? (x ++ rest) = none := by
  rw [h.parse?_sequence_append, parse?_sequence_cons, parse?_gap_eq_none hgap]
  rfl

theorem IsGroup.append_ne {g : Text} (hg : IsGroup g) (rest t : Text) : g ++ rest ≠ ':' :: t := by
  cases g with
  | nil => exact absurd rfl hg.ne_nil
  | cons c g =>
    intro h
    have hc : c = ':' := (List.cons.inj h).1
    exact hg.not_mem not_isHexDigit_colon (hc ▸ List.mem_cons_self)

theorem head_trail_append (gs : List Text) (rest : Text) :
    ∀ c ∈ (trail gs ++ ':' :: rest).head?, ¬ IsHexDigit c := by
  cases gs with
  | nil => exact head_colon rest
  | cons g gs => exact head_colon _

theorem opens_nil : Opens 0 [] where
  isGroups b hb := by
    rw [derives_sequence_nil_iff.mp hb]
    exact ⟨0, Nat.le_refl 0, [], rfl, List.forall_mem_nil _, rfl⟩
  takes gs _ hlen rest := by
    rw [List.length_eq_zero_iff.mp (Nat.le_zero.mp hlen)]
    exact Takes.nil _
  parse?_eq_none gs hgs hlen back rest := by
    cases gs with
    | nil => exact absurd hlen (Nat.lt_irrefl 0)
    | cons g gs =>
      have hgap : gap.parse? ([':'].intercalate (g :: gs) ++ ':' :: ':' :: rest) = none := by
        refine parse?_gap_eq_none fun t => ?_
        rw [intercalate_cons, List.append_assoc]
        exact (hgs g List.mem_cons_self).append_ne _ _
      rw [List.nil_append, parse?_sequence_cons, hgap]
      rfl

theorem opens_optional : Opens 1 [optional hexGroup] where
  isGroups b hb := by
    rcases derives_optional_iff.mp (derives_sequence_singleton_iff.mp hb) with rfl | hb
    · exact ⟨0, Nat.zero_le 1, [], rfl, List.forall_mem_nil _, rfl⟩
    · refine ⟨1, Nat.le_refl 1, [b], rfl, fun g hg => ?_, List.intercalate_singleton.symm⟩
      rw [List.mem_singleton.mp hg]
      exact derives_hexGroup_iff.mp hb
  takes gs hgs hlen rest := by
    match gs, hlen with
    | [], _ => exact (Takes.optional_nil (parse?_hexGroup_colon (':' :: rest))).singleton
    | [g], _ =>
      rw [List.intercalate_singleton]
      exact (takes_hexGroup_cons (hgs g List.mem_cons_self) not_isHexDigit_colon _).optional.singleton
  parse?_eq_none gs hgs hlen back rest := by
    match gs, hlen with
    | g :: g' :: gs, _ =>
      -- one group is taken, and where the gap should be the second one follows
      obtain ⟨hg, hg', -⟩ := List.forall_mem_cons.mp hgs |>.imp_right List.forall_mem_cons.mp
      rw [intercalate_cons, List.append_assoc, trail_cons]
      refine parse?_gapped_eq_none ?_ fun t => ?_
      · exact (takes_hexGroup_cons hg not_isHexDigit_colon _).optional.singleton
      · intro h
        rw [List.cons_append, List.append_assoc] at h
        exact hg'.append_ne _ _ (List.cons.inj h).2

/-! ### Groups behind the first -/

/-- A group with the colon in front of it. -/
abbrev colonGroup : Rule := .sequence [':', hexGroup]

theorem parse?_colonGroup_eq_none (rest : Text) : colonGroup.parse? (':' :: ':' :: rest) = none := by
  rw [parse?_sequence_cons, parse?_terminal_cons, if_pos rfl, Option.bind_some, parse?_sequence_cons,
    parse?_hexGroup_colon]
  rfl

theorem derives_colonGroups {n : Nat} {s : Text} (h : Derives (.repetition colonGroup 0 (some n)) s) :
    ∃ gs : List Text, gs.length ≤ n ∧ (∀ g ∈ gs, IsGroup g) ∧ s = trail gs := by
  obtain ⟨parts, rfl, hparts, -, hmax⟩ := derives_repetition_iff.mp h
  have hlen : parts.length ≤ n := hmax n rfl
  clear h hmax
  induction parts generalizing n with
  | nil => exact ⟨[], Nat.zero_le n, List.forall_mem_nil _, rfl⟩
  | cons part parts ih =>
    obtain ⟨hpart, hrest⟩ := List.forall_mem_cons.mp hparts
    obtain ⟨g, rfl, hg⟩ := derives_terminal_cons_iff.mp hpart
    have hg := derives_hexGroup_iff.mp (derives_sequence_singleton_iff.mp hg)
    rw [List.length_cons] at hlen
    obtain ⟨gs, hlen', hgs, hs⟩ := ih (n := n - 1) hrest (by omega)
    refine ⟨g :: gs, ?_, List.forall_mem_cons.mpr ⟨hg, hgs⟩, ?_⟩
    · rw [List.length_cons]
      omega
    · rw [List.flatten_cons, hs, trail_cons]
      rfl

theorem takes_colonGroups {gs : List Text} (hgs : ∀ g ∈ gs, IsGroup g) {n : Nat} (hlen : gs.length ≤ n) {t : Text}
    (hend : gs.length = n ∨ colonGroup.parse? (':' :: t) = none) :
    (Rule.repetition colonGroup 0 (some n)).Takes (trail gs) (':' :: t) := by
  induction gs generalizing n with
  | nil =>
    refine .repetition_nil (hend.imp (fun h => ?_) id)
    rw [← h]
    rfl
  | cons g gs ih =>
    obtain ⟨hg, hgs⟩ := List.forall_mem_cons.mp hgs
    rw [List.length_cons] at hlen hend
    have hne : ':' :: g ≠ [] := List.cons_ne_nil ':' g
    have hmax : some n ≠ some 0 := fun h => absurd (Option.some.inj h) (by omega)
    have htake : hexGroup.Takes g (trail gs ++ ':' :: t) := takes_hexGroup hg (head_trail_append gs t)
    refine Takes.repetition_cons hne hmax (Takes.cons (Takes.terminal ':' _) htake.singleton) ?_
    exact ih hgs (Nat.le_sub_one_of_lt hlen) (hend.imp Nat.eq_sub_of_add_eq id)

theorem takes_groupsUpTo {g : Text} {gs : List Text} (hg : IsGroup g) (hgs : ∀ g ∈ gs, IsGroup g) {n : Nat}
    (hlen : gs.length ≤ n) {t : Text} (hend : gs.length = n ∨ colonGroup.parse? (':' :: t) = none) :
    (sequence [groupsUpTo n]).Takes (g ++ trail gs) (':' :: t) :=
  have htrail := takes_colonGroups hgs hlen hend
  (Takes.cons (takes_hexGroup hg (head_trail_append gs t)) htrail.singleton).optional.singleton

theorem opens_groupsUpTo (n : Nat) : Opens (n + 1) [groupsUpTo n] where
  isGroups b hb := by
    rcases derives_optional_iff.mp (derives_sequence_singleton_iff.mp hb) with rfl | hb
    · exact ⟨0, Nat.zero_le _, [], rfl, List.forall_mem_nil _, rfl⟩
    · obtain ⟨g, _, rfl, hg, hb⟩ := derives_sequence_cons_iff.mp hb
      obtain ⟨gs, hlen, hgs, rfl⟩ := derives_colonGroups (derives_sequence_singleton_iff.mp hb)
      have hall : ∀ g' ∈ g :: gs, IsGroup g' := List.forall_mem_cons.mpr ⟨derives_hexGroup_iff.mp hg, hgs⟩
      exact ⟨gs.length + 1, Nat.succ_le_succ hlen, g :: gs, rfl, hall, (intercalate_cons g gs).symm⟩
  takes gs hgs hlen rest := by
    cases gs with
    | nil =>
      apply Takes.singleton
      apply Takes.optional_nil
      rw [parse?_sequence_cons, parse?_hexGroup_colon]
      rfl
    | cons g gs =>
      obtain ⟨hg, hgs⟩ := List.forall_mem_cons.mp hgs
      rw [intercalate_cons]
      exact takes_groupsUpTo hg hgs (Nat.le_of_succ_le_succ hlen) (Or.inr (parse?_colonGroup_eq_none rest))
  parse?_eq_none gs hgs hlen back rest := by
    cases gs with
    | nil => exact absurd hlen (Nat.not_lt_zero _)
    | cons g gs =>
      obtain ⟨hg, hgs⟩ := List.forall_mem_cons.mp hgs
      have hlt : n < gs.length := Nat.lt_of_succ_lt_succ hlen
      -- the groups that the rule takes, and the first one that is too many
      obtain ⟨front, g', more, rfl, hfront⟩ : ∃ front g' more, gs = front ++ g' :: more ∧ front.length = n := by
        refine ⟨gs.take n, gs[n], gs.drop (n + 1), ?_, List.length_take_of_le (Nat.le_of_lt hlt)⟩
        rw [← List.drop_eq_getElem_cons hlt, List.take_append_drop]
      obtain ⟨hgs, hmore⟩ := List.forall_mem_append.mp hgs
      have hg' : IsGroup g' := hmore g' List.mem_cons_self
      have htext : [':'].intercalate (g :: (front ++ g' :: more)) ++ ':' :: ':' :: rest =
          (g ++ trail front) ++ ':' :: (g' ++ (trail more ++ ':' :: ':' :: rest)) := by
        rw [intercalate_cons, trail_append, trail_cons]
        simp only [List.append_assoc, List.cons_append]
      rw [htext]
      apply parse?_gapped_eq_none (takes_groupsUpTo hg hgs (Nat.le_of_eq hfront) (Or.inl hfront))
      intro t h
      exact hg'.append_ne _ _ (List.cons.inj h).2

/-! ## Behind a gap -/

/-- The rules at the end of an address stand for exactly so many groups, an IPv4 address counting for two. They take
    that many and fail on fewer. -/
structure Closes (count : Nat) (back : List Rule) : Prop where
  isTail : ∀ a, Derives (.sequence back) a → IsTail count a
  takes : ∀ a, IsTail count a → (sequence back).Takes a []
  parse?_eq_none : ∀ k a, IsTail k a → k < count → (sequence back).parse? a = none

theorem dot_not_mem_of_isGroup {g : Text} (hg : IsGroup g) : '.' ∉ g := hg.not_mem not_isHexDigit_dot

theorem derives_lastGroups {a : Text} (h : Derives lastGroups a) :
    IsIpv4 a ∨ ∃ g g', IsGroup g ∧ IsGroup g' ∧ a = g ++ ':' :: g' := by
  rcases derives_choice_pair_iff.mp h with h | h
  · exact Or.inl (isIpv4_of_derives h)
  · obtain ⟨g, g', rfl, hg, hg'⟩ := derives_delimited_iff.mp h
    have hg' := derives_sequence_singleton_iff.mp hg'
    exact Or.inr ⟨g, g', derives_hexGroup_iff.mp hg, derives_hexGroup_iff.mp hg', rfl⟩

theorem takes_lastGroups {g g' : Text} (hg : IsGroup g) (hg' : IsGroup g') :
    lastGroups.Takes (g ++ ':' :: g') [] := by
  refine Takes.tail (parse?_ipv4_eq_none ?_) (Takes.head ?_)
  · simp [dot_not_mem_of_isGroup hg, dot_not_mem_of_isGroup hg']
  · exact Takes.cons (takes_hexGroup_cons hg not_isHexDigit_colon _)
      (Takes.cons (Takes.terminal ':' _) (takes_hexGroup_nil hg').singleton)

/-- The last groups of an address cannot be taken where there is no IPv4 address and no group with a colon. -/
theorem parse?_lastGroups_eq_none {s : Text} (hipv4 : ipv4.parse? s = none)
    (h : (sequence [hexGroup, terminal ':', hexGroup]).parse? s = none) : lastGroups.parse? s = none := by
  rw [lastGroups, parse?_choice_cons, hipv4, parse?_choice_cons, h, parse?_choice_nil]
  rfl

theorem parse?_twoGroups_eq_none {s : Text} (h : groupColon.parse? s = none) :
    (sequence [hexGroup, terminal ':', hexGroup]).parse? s = none := by
  rw [parse?_sequence_cons] at h ⊢
  cases hm : hexGroup.parse? s with
  | none => rfl
  | some m =>
    rw [hm, Option.bind_some, Option.map_eq_none_iff, parse?_sequence_cons] at h
    cases hm' : (terminal ':').parse? m.rest with
    | none =>
      rw [Option.bind_some, parse?_sequence_cons, hm']
      rfl
    | some m' =>
      rw [hm', Option.bind_some, parse?_sequence_nil] at h
      cases h

/-- One group alone is not the last two groups of an address. -/
theorem parse?_lastGroups_eq_none_of_isGroup {g : Text} (hg : IsGroup g) : lastGroups.parse? g = none :=
  parse?_lastGroups_eq_none (parse?_ipv4_eq_none (dot_not_mem_of_isGroup hg))
    (parse?_twoGroups_eq_none (IsEnd.parse?_groupColon_eq_none (Or.inl ⟨rfl, hg⟩)))

theorem parse?_lastGroups_nil : lastGroups.parse? [] = none := by decide

/-- The end of an address cannot be taken where its groups run out before an end that is none. -/
theorem parse?_leadLast_eq_none {gs : List Text} (hgs : ∀ g ∈ gs, IsGroup g) {s : Text}
    (hs : groupColon.parse? s = none) (hlast : lastGroups.parse? s = none) {count : Nat} (hle : gs.length ≤ count) :
    (sequence [groupsBefore count, lastGroups]).parse? (lead gs ++ s) = none := by
  -- there are too few groups, or just enough and then no last ones
  rcases Nat.lt_or_eq_of_le hle with hlt | rfl
  · rw [parse?_sequence_cons, parse?_groupsBefore_eq_none hgs hs hlt]
    rfl
  · have htake : (groupsBefore gs.length).parse? (lead gs ++ s) = some ⟨lead gs, s⟩ := takes_groupsBefore hgs s
    rw [parse?_sequence_cons, htake, Option.bind_some, parse?_sequence_cons, hlast]
    rfl

theorem closes_groupsBefore (count : Nat) : Closes (count + 2) [groupsBefore count, lastGroups] where
  isTail a ha := by
    obtain ⟨_, q, rfl, hlead, hq⟩ := derives_sequence_cons_iff.mp ha
    obtain ⟨gs, rfl, hgs, rfl⟩ := derives_groupsBefore hlead
    rcases derives_lastGroups (derives_sequence_singleton_iff.mp hq) with hq | ⟨g, g', hg, hg', rfl⟩
    · exact isTail_iff.mpr (Or.inr ⟨gs, 2, q, hgs, Or.inr ⟨rfl, hq⟩, rfl, rfl⟩)
    · have hall : ∀ x ∈ gs ++ [g], IsGroup x := List.forall_mem_append.mpr ⟨hgs, List.forall_mem_singleton.mpr hg⟩
      refine isTail_iff.mpr (Or.inr ⟨gs ++ [g], 1, g', hall, Or.inl ⟨rfl, hg'⟩, ?_, ?_⟩)
      · rw [List.length_append]
        rfl
      · rw [lead_append, List.append_assoc, lead_cons]
        exact congrArg (lead gs ++ ·) (List.append_assoc g [':'] g').symm
  takes a ha := by
    rcases isTail_iff.mp ha with ⟨h, -⟩ | ⟨gs, k, q, hgs, ⟨rfl, hq⟩ | ⟨rfl, hq⟩, hlen, rfl⟩
    · exact absurd h (Nat.succ_ne_zero _)
    · -- the group in front of the last one belongs to the last two
      rcases List.eq_nil_or_concat gs with rfl | ⟨gs, g, rfl⟩
      · exact absurd hlen (by simp)
      · rw [List.concat_eq_append] at hgs hlen ⊢
        have hcount : count = gs.length := by
          rw [List.length_append, List.length_singleton] at hlen
          omega
        have htext : lead (gs ++ [g]) ++ q = lead gs ++ (g ++ ':' :: q) := by
          rw [lead_append, List.append_assoc, lead_cons]
          exact congrArg (lead gs ++ ·) (List.append_assoc g [':'] q)
        rw [htext, hcount]
        obtain ⟨hgs, hg⟩ := List.forall_mem_append.mp hgs
        have hg : IsGroup g := List.forall_mem_singleton.mp hg
        exact Takes.cons (takes_groupsBefore hgs _) (takes_lastGroups hg hq).singleton
    · have hcount : count = gs.length := Nat.add_right_cancel hlen
      rw [hcount]
      exact Takes.cons (takes_groupsBefore hgs _) (Takes.head (takes_ipv4 hq)).singleton
  parse?_eq_none k a ha hlt := by
    rcases isTail_iff.mp ha with ⟨-, rfl⟩ | ⟨gs, k', q, hgs, hq, rfl, rfl⟩
    · have hnone : ∀ g ∈ ([] : List Text), IsGroup g := List.forall_mem_nil _
      exact parse?_leadLast_eq_none hnone
        (parse?_groupColon_eq_none_of_head fun _ h => absurd h (by simp)) parse?_lastGroups_nil (Nat.zero_le count)
    · -- an IPv4 address counts for two, so that there is one group less in front of it
      rcases hq with ⟨rfl, hg⟩ | ⟨rfl, hipv4⟩
      · exact parse?_leadLast_eq_none hgs (IsEnd.parse?_groupColon_eq_none (Or.inl ⟨rfl, hg⟩))
          (parse?_lastGroups_eq_none_of_isGroup hg) (by omega)
      · have hlen : gs.length < count := by omega
        rw [parse?_sequence_cons, parse?_groupsBefore_eq_none hgs
          (IsEnd.parse?_groupColon_eq_none (Or.inr ⟨rfl, hipv4⟩)) hlen]
        rfl

/-- Rules that stand for no more texts than others and match as they do close an address as they do. -/
theorem Closes.congr {count : Nat} {back back' : List Rule} (h : Closes count back)
    (hder : ∀ a, Derives (.sequence back') a → Derives (.sequence back) a)
    (hparse : ∀ s, (sequence back').parse? s = (sequence back).parse? s) : Closes count back' where
  isTail a ha := h.isTail a (hder a ha)
  takes a ha := (hparse (a ++ [])).trans (h.takes a ha)
  parse?_eq_none k a ha hlt := (hparse a).trans (h.parse?_eq_none k a ha hlt)

theorem closes_lastGroups : Closes 2 [lastGroups] := by
  refine (closes_groupsBefore 0).congr ?_ ?_
  · intro a ha
    exact Derives.sequenceCons (.repetition [] (List.forall_mem_nil _) (Nat.le_refl 0)
      fun n _ => Nat.zero_le n) ha
  · intro s
    have htake : (groupsBefore 0).parse? s = some ⟨[], s⟩ := Takes.repetition_nil (Or.inl rfl)
    rw [parse?_sequence_cons (groupsBefore 0), htake]
    show _ = ((sequence [lastGroups]).parse? s).map (Match.prepend [])
    cases (sequence [lastGroups]).parse? s <;> rfl

theorem closes_hexGroup_lastGroups : Closes 3 [hexGroup, ':', lastGroups] := by
  refine (closes_groupsBefore 1).congr ?_ ?_
  · intro a ha
    obtain ⟨g, _, rfl, hg, hs⟩ := derives_sequence_cons_iff.mp ha
    obtain ⟨c, q, rfl, hc, hq⟩ := derives_sequence_cons_iff.mp hs
    have hgroup : Derives groupColon (g ++ c) := .sequenceCons hg (derives_sequence_singleton_iff.mpr hc)
    have hbefore : Derives (groupsBefore 1) [g ++ c].flatten := by
      refine .repetition [g ++ c] ?_ (Nat.le_refl 1) ?_
      · intro part hpart
        exact List.mem_singleton.mp hpart ▸ hgroup
      · rintro n ⟨⟩
        exact Nat.le_refl 1
    rw [List.flatten_cons, List.flatten_nil, List.append_nil] at hbefore
    rw [← List.append_assoc]
    exact .sequenceCons hbefore hq
  · intro s
    rw [parse?_sequence_cons (groupsBefore 1), groupsBefore, parse?_exactly_one]
    exact parse?_sequence_append [hexGroup, ':'] [lastGroups] s

theorem closes_hexGroup : Closes 1 [hexGroup] where
  isTail a ha := by
    have hg : IsGroup a := derives_hexGroup_iff.mp (derives_sequence_singleton_iff.mp ha)
    exact isTail_iff.mpr (Or.inr ⟨[], 1, a, List.forall_mem_nil _, Or.inl ⟨rfl, hg⟩, rfl, rfl⟩)
  takes a ha := by
    rcases isTail_iff.mp ha with ⟨h, -⟩ | ⟨gs, k, q, -, ⟨rfl, hq⟩ | ⟨rfl, -⟩, hlen, rfl⟩
    · exact absurd h Nat.one_ne_zero
    · have hgs : gs = [] := List.length_eq_zero_iff.mp (Nat.add_right_cancel hlen.symm)
      subst hgs
      exact (takes_hexGroup_nil hq).singleton
    · exact absurd hlen (by omega)
  parse?_eq_none k a ha hlt := by
    rcases isTail_iff.mp ha with ⟨-, rfl⟩ | ⟨gs, k', q, -, ⟨rfl, -⟩ | ⟨rfl, -⟩, rfl, -⟩
    · rw [parse?_sequence_cons, parse?_hexGroup_eq_none fun _ h => absurd h (by simp)]
      rfl
    · exact absurd hlt (by omega)
    · exact absurd hlt (by omega)

theorem closes_nil : Closes 0 [] where
  isTail a ha := isTail_iff.mpr (Or.inl ⟨rfl, derives_sequence_nil_iff.mp ha⟩)
  takes a ha := by
    rcases isTail_iff.mp ha with ⟨-, rfl⟩ | ⟨gs, k, q, -, ⟨rfl, -⟩ | ⟨rfl, -⟩, hlen, -⟩
    · exact Takes.nil []
    · exact absurd hlen (by omega)
    · exact absurd hlen (by omega)
  parse?_eq_none _ _ _ hlt := absurd hlt (Nat.not_lt_zero _)

end HttpFields.Address
