import HttpFields.Proofs.Abnf.OneOf

/-!
# `HttpFields.Proofs.Abnf.Exact` — rules that need no going back

A rule is exact if it takes every text of its language, whatever follows. For such rules matching misses nothing, so
that what they accept is their language. Terminals, literals and fixed numbers of characters are exact, a sequence of
exact rules is, and a choice of exact rules is if no text of one is the start of a text of another.

* `Exact`, `Exact.accepts_iff` — exact rules and the texts they accept.
* `exact_sequence`, `Apart`, `exact_choice` — sequences and choices of exact rules.
-/

namespace HttpFields.Rule

/-- The rule takes every text of its language, whatever follows it. -/
def Exact (r : Rule) : Prop := ∀ x rest, Derives r x → r.Takes x rest

/-- No text of either rule is the start of a text of the other. -/
def Apart (r r' : Rule) : Prop := ∀ x y, Derives r x → Derives r' y → ¬ x <+: y ∧ ¬ y <+: x

/-- **Nothing is missed.** An exact rule accepts its language. -/
theorem Exact.accepts_iff {r : Rule} (h : Exact r) {s : Text} : r.accepts s = true ↔ Derives r s := by
  refine ⟨derives_of_accepts, fun hs => ?_⟩
  rw [accepts_iff_takes]
  exact h s [] hs

theorem exact_terminal (c : Char) : Exact (.terminal c) := by
  intro x rest hx
  rw [derives_terminal_iff.mp hx]
  exact .terminal c rest

theorem exact_literal (t : Text) : Exact (literal t) := by
  intro x rest hx
  rw [derives_literal_iff.mp hx]
  exact parse?_literal_append t rest

/-- A fixed number of characters of a class is exact. -/
theorem OneOf.exact_exactly {P : Char → Prop} {r : Rule} (hr : OneOf P r) (count : Nat) :
    Exact (exactly count r) := by
  intro x rest hx
  obtain ⟨hp, hmin, hmax⟩ := hr.derives_repetition_iff.mp hx
  have hcount : count = x.length := Nat.le_antisymm hmin (hmax count rfl)
  exact hr.takes_repetition hp hmin hmax (Or.inl (congrArg some hcount))

theorem OneOf.exact {P : Char → Prop} {r : Rule} (hr : OneOf P r) : Exact r := by
  intro x rest hx
  obtain ⟨c, hc, rfl⟩ := (hr.derives_iff x).mp hx
  exact hr.takes hc rest

/-- A sequence of exact rules is exact. -/
theorem exact_sequence {rs : List Rule} (h : ∀ r ∈ rs, Exact r) : Exact (.sequence rs) := by
  induction rs with
  | nil =>
    intro x rest hx
    rw [derives_sequence_nil_iff.mp hx]
    exact .nil rest
  | cons r rs ih =>
    intro x rest hx
    obtain ⟨y, z, rfl, hy, hz⟩ := derives_sequence_cons_iff.mp hx
    have hrs : Exact (.sequence rs) := ih fun r hr => h r (List.mem_cons_of_mem _ hr)
    exact .cons (h r List.mem_cons_self y _ hy) (hrs z rest hz)

/-- A rule fails where a rule apart from it has a text. -/
theorem Apart.parse?_eq_none {r r' : Rule} (h : Apart r r') {y : Text} (hy : Derives r' y) (rest : Text) :
    r.parse? (y ++ rest) = none := by
  rw [Option.eq_none_iff_forall_not_mem]
  intro m hm
  obtain ⟨hxy, hyx⟩ := h m.taken y (derives_of_parse? hm) hy
  -- both texts start the same text, so the shorter one starts the longer one
  have htaken : m.taken <+: y ++ rest := ⟨m.rest, taken_append_rest hm⟩
  rcases List.prefix_or_prefix_of_prefix htaken (List.prefix_append y rest) with hpre | hpre
  · exact hxy hpre
  · exact hyx hpre

/-- Rules are apart if their texts differ in a character that all of them have. -/
theorem apart_of_getElem?_ne {r r' : Rule} (k : Nat)
    (h : ∀ x y, Derives r x → Derives r' y → k < x.length ∧ k < y.length ∧ x[k]? ≠ y[k]?) : Apart r r' := by
  intro x y hx hy
  obtain ⟨hxk, hyk, hne⟩ := h x y hx hy
  constructor
  · rintro ⟨z, rfl⟩
    exact hne (List.getElem?_append_left hxk).symm
  · rintro ⟨z, rfl⟩
    exact hne (List.getElem?_append_left hyk)

/-- A choice of exact rules is exact if they are apart from one another. -/
theorem exact_choice {rs : List Rule} (h : ∀ r ∈ rs, Exact r) (hapart : rs.Pairwise Apart) : Exact (.choice rs) := by
  induction rs with
  | nil =>
    intro x rest hx
    obtain ⟨r, hr, -⟩ := derives_choice_iff.mp hx
    exact absurd hr List.not_mem_nil
  | cons r rs ih =>
    intro x rest hx
    obtain ⟨hr, hrs⟩ := List.pairwise_cons.mp hapart
    have hexact : Exact (.choice rs) := ih (fun r hr => h r (List.mem_cons_of_mem _ hr)) hrs
    obtain ⟨r', hr', hx'⟩ := derives_choice_iff.mp hx
    rcases List.mem_cons.mp hr' with rfl | hr'
    · exact .head (h r' List.mem_cons_self x rest hx')
    · -- the text belongs to a later alternative, so the first one has no text at its start
      exact .tail ((hr r' hr').parse?_eq_none hx' rest) (hexact x rest (.choice hr' hx'))

end HttpFields.Rule
