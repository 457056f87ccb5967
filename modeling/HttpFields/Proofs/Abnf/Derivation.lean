import HttpFields.Abnf.Language
import HttpFields.Proofs.Abnf.Repetition

/-!
# `HttpFields.Proofs.Abnf.Derivation` — matching and the language of a rule

What a rule matches belongs to its language, so an accepted text can be taken apart by the rules of derivation alone,
with no regard to the order in which the matcher tries them.

* `derives_sequence_append_iff`, `derives_optional_iff`, `Derives.many_induction` — derivations of compound rules.
* `derives_of_parse?` — soundness of matching.
-/

namespace HttpFields.Rule

/-! ## Soundness -/

/-- A sequence put together from two stands for a text of the one followed by a text of the other. -/
theorem derives_sequence_append_iff {rs rs' : List Rule} {s : Text} :
    Derives (.sequence (rs ++ rs')) s ↔ ∃ t u, s = t ++ u ∧ Derives (.sequence rs) t ∧ Derives (.sequence rs') u := by
  induction rs generalizing s with
  | nil =>
    constructor
    · intro h
      exact ⟨[], s, rfl, .sequenceNil, h⟩
    · rintro ⟨t, u, rfl, ht, hu⟩
      cases ht
      exact hu
  | cons r rs ih =>
    rw [List.cons_append, derives_sequence_cons_iff]
    constructor
    · rintro ⟨t, u, rfl, ht, hu⟩
      obtain ⟨u₁, u₂, rfl, h₁, h₂⟩ := ih.mp hu
      exact ⟨t ++ u₁, u₂, (List.append_assoc ..).symm, .sequenceCons ht h₁, h₂⟩
    · rintro ⟨t, u, rfl, ht, hu⟩
      obtain ⟨t₁, t₂, rfl, h₁, h₂⟩ := derives_sequence_cons_iff.mp ht
      exact ⟨t₁, t₂ ++ u, List.append_assoc .., h₁, ih.mpr ⟨t₂, u, rfl, h₂, hu⟩⟩

theorem derives_sequence_nil_iff {s : Text} : Derives (.sequence []) s ↔ s = [] := by
  constructor
  · rintro ⟨⟩
    rfl
  · rintro rfl
    exact .sequenceNil

theorem derives_sequence_singleton_iff {r : Rule} {s : Text} : Derives (.sequence [r]) s ↔ Derives r s := by
  rw [derives_sequence_cons_iff]
  constructor
  · rintro ⟨t, u, rfl, ht, hu⟩
    rw [derives_sequence_nil_iff.mp hu, List.append_nil]
    exact ht
  · intro h
    exact ⟨s, [], (List.append_nil s).symm, h, .sequenceNil⟩

theorem derives_terminal_cons_iff {d : Char} {rs : List Rule} {s : Text} :
    Derives (.sequence (.terminal d :: rs)) s ↔ ∃ t, s = d :: t ∧ Derives (.sequence rs) t := by
  rw [derives_sequence_cons_iff]
  constructor
  · rintro ⟨x, t, rfl, hx, ht⟩
    rw [derives_terminal_iff.mp hx]
    exact ⟨t, rfl, ht⟩
  · rintro ⟨t, rfl, ht⟩
    exact ⟨[d], t, rfl, .terminal d, ht⟩

/-- A rule and a delimiter behind it stand for a text of the rule and the delimiter. -/
theorem derives_delimited_iff {r : Rule} {d : Char} {rs : List Rule} {s : Text} :
    Derives (.sequence (r :: .terminal d :: rs)) s ↔ ∃ t u, s = t ++ d :: u ∧ Derives r t ∧ Derives (.sequence rs) u := by
  rw [derives_sequence_cons_iff]
  simp only [derives_terminal_cons_iff]
  constructor
  · rintro ⟨t, _, rfl, ht, u, rfl, hu⟩
    exact ⟨t, u, rfl, ht, hu⟩
  · rintro ⟨t, u, rfl, ht, hu⟩
    exact ⟨t, d :: u, rfl, ht, u, rfl, hu⟩

/-- An optional rule stands for nothing or for what its rule stands for. -/
theorem derives_optional_iff {r : Rule} {s : Text} : Derives (.optional r) s ↔ s = [] ∨ Derives r s := by
  constructor
  · intro h
    obtain ⟨parts, rfl, hparts, -, hmax⟩ := derives_repetition_iff.mp h
    match parts, hmax 1 rfl with
    | [], _ => exact Or.inl rfl
    | [part], _ =>
      rw [List.flatten_cons, List.flatten_nil, List.append_nil]
      exact Or.inr (hparts part List.mem_cons_self)
  · rintro (rfl | h)
    · exact .optional_nil r
    · exact h.optional

theorem derives_choice_pair_iff {r r' : Rule} {s : Text} :
    Derives (.choice [r, r']) s ↔ Derives r s ∨ Derives r' s := by
  rw [derives_choice_iff]
  simp only [List.mem_cons, List.not_mem_nil, or_false, exists_eq_or_imp, exists_eq_left]

/-- **Any number of texts.** What the empty text has, and what a text keeps when a text of the rule is put in front of it,
    every text has that stands for any number of texts of the rule. -/
theorem Derives.many_induction {r : Rule} {P : Text → Prop} {s : Text} (h : Derives (many r) s) (nil : P [])
    (cons : ∀ x t, Derives r x → P t → P (x ++ t)) : P s := by
  obtain ⟨parts, rfl, hparts, -, -⟩ := derives_repetition_iff.mp h
  clear h
  induction parts with
  | nil => exact nil
  | cons part parts ih =>
    obtain ⟨hpart, hrest⟩ := List.forall_mem_cons.mp hparts
    rw [List.flatten_cons]
    exact cons part parts.flatten hpart (ih hrest)

/-- The matches of a repetition are as many derivations of its rule as it asks for, if each match of the rule is one. -/
private theorem derives_parts_of_course {r : Rule}
    (ih : ∀ (s : Text) (m : Match), r.parse? s = some m → Derives r m.taken) {min : Nat} {max : Option Nat} {s : Text}
    {o : Option Match} (h : Course r min max s o) :
    ∀ m, o = some m → ∃ parts : List Text, m.taken = parts.flatten ∧ (∀ part ∈ parts, Derives r part) ∧
      min ≤ parts.length ∧ ∀ n ∈ max, parts.length ≤ n := by
  induction h with
  | crossed _ => intro m h; cases h
  | short _ => intro m h; cases h
  | full =>
    intro m h
    cases h
    exact ⟨[], rfl, List.forall_mem_nil _, Nat.le_refl 0, fun n _ => Nat.zero_le n⟩
  | done _ =>
    intro m h
    cases h
    exact ⟨[], rfl, List.forall_mem_nil _, Nat.le_refl 0, fun n _ => Nat.zero_le n⟩
  | @idle min max s hmax hm =>
    intro m h
    cases h
    -- the matches not looked for are padded with the empty one, which the rule has just shown to have
    refine ⟨List.replicate min [], ?_, ?_, ?_, ?_⟩
    · rw [List.flatten_replicate_nil]
      rfl
    · intro part hpart
      rw [List.eq_of_mem_replicate hpart]
      exact ih s (.empty s) hm
    · exact Nat.le_of_eq List.length_replicate.symm
    · rw [List.length_replicate]
      exact hmax
  | @step min max m₁ o _ hzero hm htaken _ ihrest =>
    intro m h
    obtain ⟨m₂, rfl, rfl⟩ := Option.map_eq_some_iff.mp h
    obtain ⟨parts, hparts, hder, hmin, hmax⟩ := ihrest m₂ rfl
    -- one derivation more than the rest of the repetition has, within bounds that are one higher
    refine ⟨m₁.taken :: parts, ?_, ?_, ?_, ?_⟩
    · show m₁.taken ++ m₂.taken = _
      rw [hparts, List.flatten_cons]
    · intro part hpart
      rcases List.mem_cons.mp hpart with rfl | hpart
      · exact ih _ m₁ hm
      · exact hder part hpart
    · rw [List.length_cons]
      omega
    · rintro n rfl
      have hlen := hmax (n - 1) rfl
      have hn : n ≠ 0 := fun h => hzero (h ▸ rfl)
      rw [List.length_cons]
      omega

/-- **Matching is sound.** What a rule matches belongs to its language. -/
theorem derives_of_parse? {r : Rule} {s : Text} {m : Match} (h : r.parse? s = some m) : Derives r m.taken := by
  induction r using Rule.induction generalizing s m with
  | terminal v =>
    cases s with
    | nil => rw [parse?_terminal_nil] at h; cases h
    | cons c s =>
      rw [parse?_terminal_cons] at h
      split at h
      · rename_i hc
        subst hc
        cases h
        exact .terminal c
      · cases h
  | sequence rs ih =>
    induction rs generalizing s m with
    | nil =>
      rw [parse?_sequence_nil] at h
      cases h
      exact .sequenceNil
    | cons r rs ihrs =>
      rw [parse?_sequence_cons] at h
      obtain ⟨m₁, h₁, h⟩ := Option.bind_eq_some_iff.mp h
      obtain ⟨m₂, h₂, rfl⟩ := Option.map_eq_some_iff.mp h
      exact .sequenceCons (ih r List.mem_cons_self h₁) (ihrs (fun r hr => ih r (List.mem_cons_of_mem _ hr)) h₂)
  | choice rs ih =>
    induction rs generalizing s m with
    | nil => rw [parse?_choice_nil] at h; cases h
    | cons r rs ihrs =>
      rw [parse?_choice_cons] at h
      rcases Option.or_eq_some_iff.mp h with h | ⟨-, h⟩
      · exact .choice List.mem_cons_self (ih r List.mem_cons_self h)
      · obtain ⟨r', hr', hd⟩ := derives_choice_iff.mp (ihrs (fun r hr => ih r (List.mem_cons_of_mem _ hr)) h)
        exact .choice (List.mem_cons_of_mem _ hr') hd
  | repetition r min max ih =>
    obtain ⟨parts, htaken, hparts, hmin, hmax⟩ :=
      derives_parts_of_course (fun s m => ih) (course_parse? r s min max) m h
    rw [htaken]
    exact .repetition parts hparts hmin hmax

/-- A text that a rule accepts belongs to its language. -/
theorem derives_of_accepts {r : Rule} {s : Text} (h : r.accepts s = true) : Derives r s :=
  derives_of_parse? (accepts_iff.mp h)

end HttpFields.Rule
