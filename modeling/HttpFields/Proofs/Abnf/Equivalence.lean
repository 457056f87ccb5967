import HttpFields.Proofs.Abnf.Takes

/-!
# `HttpFields.Proofs.Abnf.Equivalence` — rules that match alike

Grammars are put together from named pieces, and it should make no difference whether a piece stands under its name or
is written out in its place. That is less plain than it looks. A choice keeps the first alternative that matches and
never comes back for another, so not all laws of regular expressions survive: a choice commits before what is behind it
has been tried, and must not be drawn out to the front of a sequence.

The laws that survive are those that leave the order of trial as it is. Two rules are equivalent when they have the same
match on every text; a rule sees no more of its parts than their matches, so a part may be replaced by an equivalent one
wherever it stands.

* `Equivalent`, `Context` — rules that match alike, and the places in which a rule can stand.
* `Equivalent.fill` — equivalent rules in the same place.
* `equivalent_sequence_flatten`, `equivalent_choice_flatten` — nested sequences and nested choices.
* `equivalent_sequence_choice` — a choice at the end of a sequence.
* `equivalent_regrouped` — all of them.
-/

namespace HttpFields.Rule

/-! ## Equivalent rules -/

/-- The rules have the same match on every text. -/
def Equivalent (r r' : Rule) : Prop := ∀ s, r.parse? s = r'.parse? s

/-- A rule in which one sub-rule, at any depth, is left open. -/
inductive Context where
  /-- The open place itself. -/
  | hole
  /-- A sequence with the open place in the rule between the given ones. -/
  | sequence (before : List Rule) (inside : Context) (behind : List Rule)
  /-- A choice with the open place in the alternative between the given ones. -/
  | choice (before : List Rule) (inside : Context) (behind : List Rule)
  /-- A repetition with the open place in its rule. -/
  | repetition (inside : Context) (min : Nat) (max : Option Nat)

/-- The rule with the given rule in the open place. -/
def Context.fill : Context → Rule → Rule
  | .hole, r => r
  | .sequence before inside behind, r => .sequence (before ++ inside.fill r :: behind)
  | .choice before inside behind, r => .choice (before ++ inside.fill r :: behind)
  | .repetition inside min max, r => .repetition (inside.fill r) min max

/-! ## Equivalent rules in the same place -/

section Replacement

variable {r r' : Rule}

theorem Equivalent.sequence (h : Equivalent r r') (before behind : List Rule) :
    Equivalent (.sequence (before ++ r :: behind)) (.sequence (before ++ r' :: behind)) := by
  intro s
  simp only [parse?_sequence_append, parse?_sequence_cons, h _]

theorem Equivalent.choice (h : Equivalent r r') (before behind : List Rule) :
    Equivalent (.choice (before ++ r :: behind)) (.choice (before ++ r' :: behind)) := by
  intro s
  rw [parse?_choice_append, parse?_choice_append, parse?_choice_cons, parse?_choice_cons, h s]

/-- A repetition applies its rule to one text after another, each time for no more than the match. -/
theorem Equivalent.repetition (h : Equivalent r r') (min : Nat) (max : Option Nat) :
    Equivalent (.repetition r min max) (.repetition r' min max) := by
  intro s
  have hparse : r.parse? = r'.parse? := funext h
  rw [parse?, parse?, hparse]

/-- **Equivalent rules in the same place** make equivalent rules. -/
theorem Equivalent.fill (h : Equivalent r r') (C : Context) : Equivalent (C.fill r) (C.fill r') := by
  induction C with
  | hole => exact h
  | sequence before inside behind ih => exact ih.sequence before behind
  | choice before inside behind ih => exact ih.choice before behind
  | repetition inside min max ih => exact ih.repetition min max

end Replacement

/-! ## Regrouping -/

/-- A sequence inside a sequence may be written out. -/
theorem equivalent_sequence_flatten (before inside behind : List Rule) :
    Equivalent (.sequence (before ++ .sequence inside :: behind)) (.sequence (before ++ inside ++ behind)) := by
  intro s
  rw [List.append_assoc]
  simp only [parse?_sequence_append, parse?_sequence_cons]

/-- A choice inside a choice may be written out. -/
theorem equivalent_choice_flatten (before inside behind : List Rule) :
    Equivalent (.choice (before ++ .choice inside :: behind)) (.choice (before ++ inside ++ behind)) := by
  intro s
  rw [List.append_assoc, parse?_choice_append, parse?_choice_append, parse?_choice_cons, parse?_choice_append]

/-- **A choice at the end.** A sequence that ends with a choice may be written as the choice of the sequences that end with
    its alternatives. What is in front has one match at most, so trying it again for the next alternative ends up on the
    same text. -/
theorem equivalent_sequence_choice (before alternatives : List Rule) :
    Equivalent (.sequence (before ++ [.choice alternatives]))
      (.choice (alternatives.map fun r => .sequence (before ++ [r]))) := by
  intro s
  induction alternatives with
  | nil =>
    rw [parse?_sequence_append]
    cases (Rule.sequence before).parse? s <;> simp [parse?_sequence_singleton]
  | cons r rs ih =>
    rw [List.map_cons, parse?_choice_cons, ← ih]
    simp only [parse?_sequence_append, parse?_sequence_singleton, parse?_choice_cons]
    cases (Rule.sequence before).parse? s with
    | none => rfl
    | some m => simp only [Option.bind_some, Option.map_or]

/-- A literal text may be cut in two. -/
theorem equivalent_literal_append (t u : Text) :
    Equivalent (literal (t ++ u)) (.sequence [literal t, literal u]) := by
  intro s
  rw [literal, List.map_append, parse?_sequence_append, parse?_sequence_cons]
  simp only [parse?_sequence_singleton, literal]

/-- **Regrouping is harmless.** Equivalent rules may stand for each other anywhere in a rule; sequences in sequences,
    choices in choices and choices at the end of a sequence may be written out, and literal texts may be cut. -/
theorem equivalent_regrouped :
    (∀ (C : Context) (r r' : Rule), Equivalent r r' → Equivalent (C.fill r) (C.fill r')) ∧
      (∀ before inside behind : List Rule,
        Equivalent (.sequence (before ++ .sequence inside :: behind)) (.sequence (before ++ inside ++ behind))) ∧
      (∀ before inside behind : List Rule,
        Equivalent (.choice (before ++ .choice inside :: behind)) (.choice (before ++ inside ++ behind))) ∧
      (∀ before alternatives : List Rule,
        Equivalent (.sequence (before ++ [.choice alternatives]))
          (.choice (alternatives.map fun r => .sequence (before ++ [r])))) ∧
      ∀ t u : Text, Equivalent (literal (t ++ u)) (.sequence [literal t, literal u]) := by
  refine ⟨?_, equivalent_sequence_flatten, equivalent_choice_flatten, equivalent_sequence_choice,
    equivalent_literal_append⟩
  intro C r r' h
  exact h.fill C

/-- A literal text is cut in two inside a repetition that is an alternative of a choice. -/
theorem equivalent_regrouped_repetition :
    let C : Context := .choice ['a'] (.repetition (.sequence [] .hole ['z']) 2 (some 3)) [.many 'x']
    let cut : Rule := .sequence [literal ['x'], literal ['y']]
    Equivalent (literal ['x', 'y']) cut ∧ Equivalent (C.fill (literal ['x', 'y'])) (C.fill cut) ∧
      (C.fill cut).parse? ['x', 'y', 'z', 'x', 'y', 'z', 'x'] = some ⟨['x', 'y', 'z', 'x', 'y', 'z'], ['x']⟩ := by
  intro C cut
  obtain ⟨hfill, -, -, -, hliteral⟩ := equivalent_regrouped
  have hcut : Equivalent (literal ['x', 'y']) cut := hliteral ['x'] ['y']
  exact ⟨hcut, hfill C _ cut hcut, by decide⟩

/-- A choice at the front must not be drawn out: it keeps its first alternative, though the second one would have
    left a text for the rule behind. -/
example :
    (sequence [.choice ['x', literal ['x', 'y']], 'z']).parse? ['x', 'y', 'z'] = none ∧
      (choice [.sequence ['x', 'z'], .sequence [literal ['x', 'y'], 'z']]).parse? ['x', 'y', 'z'] =
        some ⟨['x', 'y', 'z'], []⟩ := by decide

end HttpFields.Rule
