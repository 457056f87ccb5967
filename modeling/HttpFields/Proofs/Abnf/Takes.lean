import HttpFields.Proofs.Abnf.Derivation

/-!
# `HttpFields.Proofs.Abnf.Takes` — where matching does not miss a text

A text of a rule's language need not be matched, for matching never goes back. `Takes` states where it is: the rule
takes the text `x` in front of `rest`, no more and no less. The forms of rules take texts as their parts do, provided
that the parts do not take more (`Takes.cons`) and that no earlier alternative matches (`Takes.tail`).

* `Takes.cons`, `Takes.head`, `Takes.tail`, `Takes.repetition_cons` — how the forms of rules take texts.
* `accepts_sequence_cons_iff`, `accepts_optional_iff` — accepted texts, for a reader that takes them apart in order.
-/

namespace HttpFields.Rule

/-! ## Texts that a rule takes -/

/-- The rule takes the text `x` in front of `rest`. -/
def Takes (r : Rule) (x rest : Text) : Prop := r.parse? (x ++ rest) = some ⟨x, rest⟩

theorem accepts_iff_takes {r : Rule} {s : Text} : r.accepts s = true ↔ r.Takes s [] := by
  rw [accepts_iff, Takes, List.append_nil]

/-- What a rule takes does not depend on where the text is cut. -/
theorem takes_of_parse? {r : Rule} {s : Text} {m : Match} (h : r.parse? s = some m) : r.Takes m.taken m.rest := by
  show r.parse? (m.taken ++ m.rest) = some m
  rw [taken_append_rest h]
  exact h

theorem Takes.terminal (c : Char) (rest : Text) : (terminal c).Takes [c] rest := by
  show (Rule.terminal c).parse? (c :: rest) = _
  rw [parse?_terminal_cons, if_pos rfl]

theorem Takes.nil (rest : Text) : (sequence []).Takes [] rest := parse?_sequence_nil rest

/-- A sequence takes what its first rule takes in front of what the others take. -/
theorem Takes.cons {r : Rule} {rs : List Rule} {x y rest : Text} (h : r.Takes x (y ++ rest))
    (hs : (sequence rs).Takes y rest) : (sequence (r :: rs)).Takes (x ++ y) rest := by
  unfold Takes at h hs ⊢
  rw [List.append_assoc, parse?_sequence_cons, h, Option.bind_some, hs]
  rfl

/-- A sequence put together from two matches the one and then, behind it, the other. -/
theorem parse?_sequence_append (rs rs' : List Rule) (s : Text) :
    (sequence (rs ++ rs')).parse? s =
      ((sequence rs).parse? s).bind fun m => ((sequence rs').parse? m.rest).map (.prepend m.taken) := by
  induction rs generalizing s with
  | nil =>
    rw [parse?_sequence_nil, Option.bind_some, List.nil_append]
    exact (Match.map_prepend_nil _).symm
  | cons r rs ih =>
    rw [List.cons_append, parse?_sequence_cons, parse?_sequence_cons]
    cases r.parse? s with
    | none => rfl
    | some m =>
      rw [Option.bind_some, Option.bind_some, ih]
      cases (sequence rs).parse? m.rest with
      | none => rfl
      | some m' => exact Match.map_prepend_map_prepend m.taken m'.taken _

/-- A sequence of one rule is the rule. -/
theorem parse?_sequence_singleton (r : Rule) (s : Text) : (sequence [r]).parse? s = r.parse? s := by
  rw [parse?_sequence_cons]
  cases r.parse? s with
  | none => rfl
  | some m => simp [Match.empty, Match.prepend]

/-- A choice put together from two tries the one and then, on the same text, the other. -/
theorem parse?_choice_append (rs rs' : List Rule) (s : Text) :
    (choice (rs ++ rs')).parse? s = ((choice rs).parse? s).or ((choice rs').parse? s) := by
  induction rs with
  | nil => simp
  | cons r rs ih => rw [List.cons_append, parse?_choice_cons, parse?_choice_cons, ih, Option.or_assoc]

/-- Behind what its first rules take, a sequence goes on with the others. -/
theorem Takes.parse?_sequence_append {rs rs' : List Rule} {x rest : Text} (h : (sequence rs).Takes x rest) :
    (sequence (rs ++ rs')).parse? (x ++ rest) = ((sequence rs').parse? rest).map (.prepend x) := by
  unfold Takes at h
  rw [Rule.parse?_sequence_append, h, Option.bind_some]

theorem Takes.append {rs rs' : List Rule} {x y rest : Text} (h : (sequence rs).Takes x (y ++ rest))
    (h' : (sequence rs').Takes y rest) : (sequence (rs ++ rs')).Takes (x ++ y) rest := by
  unfold Takes at h'
  rw [Takes, List.append_assoc, h.parse?_sequence_append, h']
  rfl

theorem Takes.singleton {r : Rule} {x rest : Text} (h : r.Takes x rest) : (sequence [r]).Takes x rest := by
  unfold Takes at h ⊢
  rw [parse?_sequence_singleton, h]

/-- The first rule of a choice takes what it takes on its own. -/
theorem Takes.head {r : Rule} {rs : List Rule} {x rest : Text} (h : r.Takes x rest) :
    (choice (r :: rs)).Takes x rest := by
  unfold Takes at h ⊢
  rw [parse?_choice_cons, h, Option.some_or]

/-- Where the first rule of a choice fails, the others take what they take. -/
theorem Takes.tail {r : Rule} {rs : List Rule} {x rest : Text} (hr : r.parse? (x ++ rest) = none)
    (h : (choice rs).Takes x rest) : (choice (r :: rs)).Takes x rest := by
  unfold Takes at h ⊢
  rw [parse?_choice_cons, hr, Option.none_or, h]

/-- An optional rule takes what its rule takes. -/
theorem Takes.optional {r : Rule} {x rest : Text} (h : r.Takes x rest) : (optional r).Takes x rest := by
  unfold Takes at h ⊢
  rw [parse?_optional, h, Option.getD_some]

theorem Takes.optional_nil {r : Rule} {rest : Text} (h : r.parse? rest = none) : (Rule.optional r).Takes [] rest := by
  show (Rule.optional r).parse? rest = _
  rw [parse?_optional, h, Option.getD_none]
  rfl

theorem Takes.repetition_nil {r : Rule} {max : Option Nat} {rest : Text} (h : max = some 0 ∨ r.parse? rest = none) :
    (repetition r 0 max).Takes [] rest := by
  have hany : max.any (· < 0) = false := by cases max <;> rfl
  show (repetition r 0 max).parse? rest = some (.empty rest)
  rw [parse?_repetition, hany, if_neg Bool.false_ne_true]
  rcases h with h | h
  · rw [if_pos h]
  · rw [h, if_pos rfl, ite_self]

/-- A repetition takes what its rule takes in front of what a repetition with one match less takes. -/
theorem Takes.repetition_cons {r : Rule} {min : Nat} {max : Option Nat} {x y rest : Text} (hx : x ≠ [])
    (hmax : max ≠ some 0) (h : r.Takes x (y ++ rest))
    (hs : (repetition r (min - 1) (max.map (· - 1))).Takes y rest) : (repetition r min max).Takes (x ++ y) rest := by
  unfold Takes at h hs ⊢
  have hany : max.any (· < min) = false := by
    cases max with
    | none => rfl
    | some n =>
      -- a least number above the greatest would stay above it
      rw [parse?_repetition] at hs
      by_cases hlt : n < min
      · have hn : n ≠ 0 := fun hn => hmax (congrArg some hn)
        have hlt' : n - 1 < min - 1 := by omega
        rw [Option.map_some, Option.any_some, decide_eq_true hlt', if_pos rfl] at hs
        cases hs
      · exact decide_eq_false hlt
  rw [List.append_assoc, parse?_repetition, hany, if_neg Bool.false_ne_true, if_neg hmax, h]
  show (if x = [] then _ else Option.map _ ((repetition r _ _).parse? (y ++ rest))) = _
  rw [if_neg hx, hs]
  rfl

/-! ## Accepted texts -/

/-- A sequence accepts a text if its first rule matches some of it and the others accept the rest. -/
theorem accepts_sequence_cons_iff {r : Rule} {rs : List Rule} {s : Text} :
    (sequence (r :: rs)).accepts s = true ↔ ∃ m, r.parse? s = some m ∧ (sequence rs).accepts m.rest = true := by
  rw [accepts_iff, parse?_sequence_cons, Option.bind_eq_some_iff]
  constructor
  · rintro ⟨m, hm, h⟩
    obtain ⟨m', hm', h⟩ := Option.map_eq_some_iff.mp h
    refine ⟨m, hm, accepts_iff.mpr ?_⟩
    have hrest : m'.rest = [] := congrArg Match.rest h
    have htaken : m'.taken = m.rest := by
      rw [← taken_append_rest hm', hrest, List.append_nil]
    rw [hm', ← hrest, ← htaken]
  · rintro ⟨m, hm, h⟩
    refine ⟨m, hm, ?_⟩
    rw [accepts_iff.mp h, ← taken_append_rest hm]
    rfl

theorem accepts_sequence_singleton_iff {r : Rule} {s : Text} :
    (sequence [r]).accepts s = true ↔ r.accepts s = true := by
  rw [accepts_iff, accepts_iff, parse?_sequence_singleton]

theorem accepts_optional_iff {r : Rule} {s : Text} :
    (optional r).accepts s = true ↔ s = [] ∨ r.accepts s = true := by
  rw [accepts_iff, accepts_iff, parse?_optional, Option.some.injEq]
  cases hm : r.parse? s with
  | none =>
    rw [Option.getD_none, Match.empty, Match.mk.injEq]
    constructor
    · rintro ⟨h, -⟩
      exact Or.inl h.symm
    · rintro (rfl | h)
      · exact ⟨rfl, rfl⟩
      · cases h
  | some m =>
    rw [Option.getD_some, Option.some.injEq]
    constructor
    · exact Or.inr
    · rintro (rfl | h)
      · obtain ⟨htaken, hrest⟩ := List.append_eq_nil_iff.mp (taken_append_rest hm)
        exact congr (congrArg Match.mk htaken) hrest
      · exact h

end HttpFields.Rule
