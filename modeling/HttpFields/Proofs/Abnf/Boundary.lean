import HttpFields.Abnf.Mention
import HttpFields.Proofs.Abnf.Equivalence

/-!
# `HttpFields.Proofs.Abnf.Boundary` — a character never mentioned ends the text

What follows a match can change it in general: a longer text may let a repetition go on or another alternative win. It
cannot if it starts with a character that the rule does not mention, which the rule treats like the end of the text.
This is what lets a part of a field value be read as if it stood alone.

* `parse?_append_cons` — the match in front of a character never mentioned.
* `Takes.of_accepts` — what a rule accepts it takes in front of such a character.
* `mentions_iff_exists_fill` — a rule mentions the characters that stand somewhere in it.
* `parse?_unmentioned` — matches in front of a character that stands nowhere in the rule.
-/

namespace HttpFields

/-- The match in a text that goes on with more characters. -/
def Match.extend (m : Match) (more : Text) : Match := ⟨m.taken, m.rest ++ more⟩

namespace Rule

private theorem parse?_repetition_append_cons {r : Rule} {d : Char} {t : Text}
    (ih : ∀ x : Text, r.parse? (x ++ d :: t) = (r.parse? x).map (·.extend (d :: t))) {min : Nat} {max : Option Nat}
    {x : Text} {o : Option Match} (h : Course r min max x o) :
    (repetition r min max).parse? (x ++ d :: t) = o.map (·.extend (d :: t)) := by
  -- on the course in front of the character: every match of the rule there is one in the longer text as well
  induction h with
  | crossed hmax => exact parse?_repetition_of_crossed hmax r _
  | @full x =>
    rw [parse?_repetition]
    rfl
  | @done max x hx =>
    have hany : max.any (· < 0) = false := any_lt_eq_false fun n _ => Nat.zero_le n
    rw [parse?_repetition, hany, ih x, hx]
    split
    · contradiction
    · split <;> rfl
  | @short min max x hx =>
    rw [parse?_repetition, ih x, hx]
    split
    · rfl
    · split
      · rename_i hmax hzero
        subst hzero
        exact absurd (decide_eq_true (Nat.succ_pos min)) hmax
      · rfl
  | @idle min max x hmax hx =>
    apply parse?_repetition_of_empty hmax
    rw [ih x, hx]
    rfl
  | @step min max m o hmax hzero hm htaken _ ihrest =>
    have hextended : r.parse? (m.whole ++ d :: t) = some (m.extend (d :: t)) := by
      rw [ih m.whole, hm]
      rfl
    rw [parse?_repetition_of_step hmax hzero hextended htaken]
    show Option.map _ ((repetition r _ _).parse? (m.rest ++ d :: t)) = _
    rw [ihrest, Option.map_map, Option.map_map]
    rfl

/-- **A character never mentioned ends the text.** In front of such a character a rule matches what it matches at the
    end of the text, whatever follows. -/
theorem parse?_append_cons {r : Rule} {d : Char} (h : ¬ r.Mentions d) (x t : Text) :
    r.parse? (x ++ d :: t) = (r.parse? x).map (·.extend (d :: t)) := by
  -- what a rule does not mention none of its parts mentions
  induction r using Rule.induction generalizing x with
  | terminal v =>
    cases x with
    | nil =>
      have hd : d ≠ v := fun hd => h (mentions_terminal_iff.mpr hd)
      rw [List.nil_append, parse?_terminal_cons, parse?_terminal_nil, if_neg hd]
      rfl
    | cons c x =>
      rw [List.cons_append, parse?_terminal_cons, parse?_terminal_cons]
      split <;> rfl
  | sequence rs ih =>
    rw [mentions_sequence_iff] at h
    induction rs generalizing x with
    | nil =>
      rw [parse?_sequence_nil, parse?_sequence_nil]
      rfl
    | cons r rs ihrs =>
      have hr : ¬ r.Mentions d := fun hr => h ⟨r, List.mem_cons_self, hr⟩
      rw [parse?_sequence_cons, parse?_sequence_cons, ih r List.mem_cons_self hr x]
      cases hm : r.parse? x with
      | none => rfl
      | some m =>
        have hrest := ihrs (fun r hr => ih r (List.mem_cons_of_mem _ hr))
          (fun ⟨r, hr, hd⟩ => h ⟨r, List.mem_cons_of_mem _ hr, hd⟩) m.rest
        show Option.map _ ((sequence rs).parse? (m.rest ++ d :: t)) =
          Option.map _ (((sequence rs).parse? m.rest).map _)
        rw [hrest, Option.map_map, Option.map_map]
        rfl
  | choice rs ih =>
    rw [mentions_choice_iff] at h
    induction rs with
    | nil =>
      rw [parse?_choice_nil, parse?_choice_nil]
      rfl
    | cons r rs ihrs =>
      have hr : ¬ r.Mentions d := fun hr => h ⟨r, List.mem_cons_self, hr⟩
      have hrest := ihrs (fun r hr => ih r (List.mem_cons_of_mem _ hr))
        (fun ⟨r, hr, hd⟩ => h ⟨r, List.mem_cons_of_mem _ hr, hd⟩)
      rw [parse?_choice_cons, parse?_choice_cons, ih r List.mem_cons_self hr x, hrest]
      cases r.parse? x <;> rfl
  | repetition r min max ih =>
    rw [mentions_repetition_iff] at h
    exact parse?_repetition_append_cons (ih h) (course_parse? r x min max)

/-- What a rule accepts it takes in front of a character that it never mentions. -/
theorem Takes.of_accepts {r : Rule} {x : Text} {d : Char} (h : ¬ r.Mentions d) (hx : r.Takes x []) (t : Text) :
    r.Takes x (d :: t) := by
  unfold Takes at hx ⊢
  rw [List.append_nil] at hx
  rw [parse?_append_cons h, hx]
  rfl

/-! ## Where a character is mentioned -/

/-- A rule mentions a character exactly if the character stands in one of the places of the rule. -/
theorem mentions_iff_exists_fill {r : Rule} {c : Char} : r.Mentions c ↔ ∃ C : Context, C.fill (.terminal c) = r := by
  constructor
  · intro h
    induction r using Rule.induction with
    | terminal v =>
      rw [mentions_terminal_iff.mp h]
      exact ⟨.hole, rfl⟩
    | sequence rs ih =>
      obtain ⟨r, hr, hc⟩ := mentions_sequence_iff.mp h
      obtain ⟨C, hC⟩ := ih r hr hc
      obtain ⟨before, behind, rfl⟩ := List.append_of_mem hr
      exact ⟨.sequence before C behind, by rw [Context.fill, hC]⟩
    | choice rs ih =>
      obtain ⟨r, hr, hc⟩ := mentions_choice_iff.mp h
      obtain ⟨C, hC⟩ := ih r hr hc
      obtain ⟨before, behind, rfl⟩ := List.append_of_mem hr
      exact ⟨.choice before C behind, by rw [Context.fill, hC]⟩
    | repetition r min max ih =>
      obtain ⟨C, hC⟩ := ih (mentions_repetition_iff.mp h)
      exact ⟨.repetition C min max, by rw [Context.fill, hC]⟩
  · rintro ⟨C, rfl⟩
    induction C with
    | hole => exact mentions_terminal_iff.mpr rfl
    | sequence before inside behind ih =>
      exact mentions_sequence_iff.mpr ⟨_, List.mem_append_right _ List.mem_cons_self, ih⟩
    | choice before inside behind ih =>
      exact mentions_choice_iff.mpr ⟨_, List.mem_append_right _ List.mem_cons_self, ih⟩
    | repetition inside min max ih => exact mentions_repetition_iff.mpr ih

/-- **Like the end of the text.** In front of a character that stands nowhere in it, a rule matches exactly if it matches
    where the text ends, and then it takes the same, whatever comes behind the character. -/
theorem parse?_unmentioned (r : Rule) (d : Char) (h : ∀ C : Context, C.fill (.terminal d) ≠ r) (x t : Text) :
    ((∃ m, r.parse? (x ++ d :: t) = some m) ↔ ∃ m, r.parse? x = some m) ∧
      ∀ m m', r.parse? (x ++ d :: t) = some m → r.parse? x = some m' →
        m.taken = m'.taken ∧ m.rest = m'.rest ++ d :: t := by
  have hd : ¬ r.Mentions d := by
    intro hmentions
    obtain ⟨C, hC⟩ := mentions_iff_exists_fill.mp hmentions
    exact h C hC
  rw [parse?_append_cons hd]
  cases r.parse? x with
  | none => exact ⟨by simp, nofun⟩
  | some m₁ =>
    refine ⟨by simp, ?_⟩
    intro m m' hm hm'
    cases hm
    cases hm'
    exact ⟨rfl, rfl⟩

/-- A range that is not finished stays so in front of a comma, though there are more digits behind it. Without the comma
    they finish it. -/
theorem parse?_unmentioned_comma :
    let digits : Rule := .many1 (.between '0' '9')
    let range : Rule := .sequence [digits, .optional (.sequence ['-', digits])]
    (∀ C : Context, C.fill (.terminal ',') ≠ range) ∧
      range.parse? ['1', '2', '-'] = some ⟨['1', '2'], ['-']⟩ ∧
      range.parse? (['1', '2', '-'] ++ ',' :: ['7']) = some ⟨['1', '2'], ['-', ',', '7']⟩ ∧
      range.parse? (['1', '2', '-'] ++ ['7']) = some ⟨['1', '2', '-', '7'], []⟩ := by
  intro digits range
  have hcomma : ∀ C : Context, C.fill (.terminal ',') ≠ range := by
    intro C hC
    exact absurd (mentions_iff_exists_fill.mpr ⟨C, hC⟩) (by decide)
  have halone : range.parse? ['1', '2', '-'] = some ⟨['1', '2'], ['-']⟩ := by decide
  obtain ⟨hmatches, hsame⟩ := parse?_unmentioned range ',' hcomma ['1', '2', '-'] ['7']
  obtain ⟨⟨taken, rest⟩, hm⟩ := hmatches.mpr ⟨_, halone⟩
  obtain ⟨rfl, rfl⟩ := hsame _ _ hm halone
  exact ⟨hcomma, halone, hm, by decide⟩

end Rule

end HttpFields
