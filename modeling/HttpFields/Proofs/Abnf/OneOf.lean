import Mathlib.Data.List.Sections
import HttpFields.Abnf.Mention
import HttpFields.Proofs.Abnf.Takes

/-!
# `HttpFields.Proofs.Abnf.OneOf` — rules for one character, and runs of them

Most of a grammar is made of runs of characters of a class. A rule that is one character of a class is known by the
class alone, and so are its repetitions: they stand for the texts of such characters, and take one as long as the text
behind it does not go on with another.

* `OneOf` — rules that match one character of a class.
* `IsClass`, `IsClass.oneOf` — choices of characters, nested to any depth.
* `OneOf.derives_repetition_iff`, `OneOf.takes_repetition` — what their repetitions stand for, and what they take.
* `mem_sections_of_derives` — sequences of single characters stand for finitely many texts.
-/

namespace HttpFields.Rule

/-! ## One character of a class -/

/-- The rule stands for the single characters of a class, and takes any of them. -/
structure OneOf (P : Char → Prop) (r : Rule) : Prop where
  takes : ∀ {c : Char}, P c → ∀ rest, r.Takes [c] rest
  parse?_eq_none : ∀ {s : Text}, (∀ c ∈ s.head?, ¬ P c) → r.parse? s = none
  derives_iff : ∀ s, Derives r s ↔ ∃ c, P c ∧ s = [c]

theorem OneOf.congr {P Q : Char → Prop} {r : Rule} (hr : OneOf P r) (h : ∀ {c : Char}, P c ↔ Q c) : OneOf Q r where
  takes hc rest := hr.takes (h.mpr hc) rest
  parse?_eq_none hs := hr.parse?_eq_none fun c hc hP => hs c hc (h.mp hP)
  derives_iff s := by simp only [hr.derives_iff, h]

theorem oneOf_terminal (v : Char) : OneOf (· = v) (terminal v) where
  takes hc rest := by
    rw [hc]
    exact .terminal v rest
  parse?_eq_none {s} hs := by
    cases s with
    | nil => exact parse?_terminal_nil v
    | cons c s => rw [parse?_terminal_cons, if_neg (hs c rfl)]
  derives_iff s := by rw [derives_terminal_iff, exists_eq_left]

/-- A choice of rules for one character is a rule for one character, which any of them has. -/
theorem oneOf_choice {P : Rule → Char → Prop} {rs : List Rule} (h : ∀ r ∈ rs, OneOf (P r) r) :
    OneOf (fun c => ∃ r ∈ rs, P r c) (.choice rs) where
  takes {c} hc rest := by
    induction rs with
    | nil =>
      obtain ⟨r, hr, -⟩ := hc
      exact absurd hr List.not_mem_nil
    | cons r rs ih =>
      have hr : OneOf (P r) r := h r List.mem_cons_self
      by_cases hP : P r c
      · exact .head (hr.takes hP rest)
      · -- the character belongs to a later alternative, and the first one fails on it
        refine .tail (hr.parse?_eq_none (by simpa using hP)) (ih (fun r hr => h r (List.mem_cons_of_mem _ hr)) ?_)
        obtain ⟨r', hr', hc⟩ := hc
        rcases List.mem_cons.mp hr' with rfl | hr'
        · exact absurd hc hP
        · exact ⟨r', hr', hc⟩
  parse?_eq_none {s} hs := by
    induction rs with
    | nil => exact parse?_choice_nil s
    | cons r rs ih =>
      have hr : r.parse? s = none :=
        (h r List.mem_cons_self).parse?_eq_none fun c hc hP => hs c hc ⟨r, List.mem_cons_self, hP⟩
      have hrs : (choice rs).parse? s = none :=
        ih (fun r hr => h r (List.mem_cons_of_mem _ hr)) fun c hc ⟨r, hr, hP⟩ =>
          hs c hc ⟨r, List.mem_cons_of_mem _ hr, hP⟩
      rw [parse?_choice_cons, hr, hrs, Option.none_or]
  derives_iff s := by
    rw [derives_choice_iff]
    constructor
    · rintro ⟨r, hr, hs⟩
      obtain ⟨c, hc, rfl⟩ := ((h r hr).derives_iff s).mp hs
      exact ⟨c, ⟨r, hr, hc⟩, rfl⟩
    · rintro ⟨c, ⟨r, hr, hc⟩, rfl⟩
      exact ⟨r, hr, ((h r hr).derives_iff [c]).mpr ⟨c, hc, rfl⟩⟩

/-! ## Classes of characters -/

/-- The rule is a class of characters: a single one, or a choice of classes, nested to any depth. -/
inductive IsClass : Rule → Prop where
  /-- A single character. -/
  | terminal (value : Char) : IsClass (.terminal value)
  /-- Any character of one of the given classes; none if there is no class. -/
  | choice {rules : List Rule} (h : ∀ r ∈ rules, IsClass r) : IsClass (.choice rules)

/-- A span is the class of its characters, even if it has none. -/
theorem isClass_between (low high : Char) : IsClass (between low high) := by
  apply IsClass.choice
  intro r hr
  obtain ⟨c, -, rfl⟩ := List.mem_map.mp hr
  exact .terminal c

theorem isClass_rule (cls : CharClass) : IsClass cls.rule := by
  apply IsClass.choice
  intro r hr
  obtain ⟨p, -, rfl⟩ := List.mem_map.mp hr
  exact isClass_between p.1 p.2

/-- **Nested classes.** A class is one of the characters that it mentions, however deep they stand. -/
theorem IsClass.oneOf {r : Rule} (h : IsClass r) : OneOf (Mentions · r) r := by
  induction h with
  | terminal v => exact (oneOf_terminal v).congr mentions_terminal_iff.symm
  | choice _ ih => exact (oneOf_choice ih).congr mentions_choice_iff.symm

theorem oneOf_between (low high : Char) : OneOf (fun c => low ≤ c ∧ c ≤ high) (between low high) :=
  (isClass_between low high).oneOf.congr mentions_between_iff

/-- The rule of a class is one of its characters. -/
theorem oneOf_class (cls : CharClass) : OneOf (fun c => cls.contains c = true) cls.rule :=
  (isClass_rule cls).oneOf.congr mentions_class_iff

/-! ## Sequences of single characters -/

theorem oneOf_mem_singleton (v : Char) : OneOf (· ∈ [v]) (terminal v) :=
  (oneOf_terminal v).congr List.mem_singleton.symm

theorem oneOf_mem_charactersBetween (low high : Char) :
    OneOf (· ∈ charactersBetween low high) (between low high) :=
  (oneOf_between low high).congr mem_charactersBetween.symm

/-- A sequence of rules for one character stands for the texts that choose a character from each alphabet. -/
theorem mem_sections_of_derives {alphabets : List (List Char)} {rs : List Rule}
    (h : List.Forall₂ (fun alphabet r => OneOf (· ∈ alphabet) r) alphabets rs) {s : Text}
    (hs : Derives (.sequence rs) s) : s ∈ alphabets.sections := by
  rw [List.mem_sections]
  induction h generalizing s with
  | nil =>
    rw [derives_sequence_nil_iff.mp hs]
    exact .nil
  | @cons alphabet r alphabets rs hr _ ih =>
    obtain ⟨t, u, rfl, ht, hu⟩ := derives_sequence_cons_iff.mp hs
    obtain ⟨c, hc, rfl⟩ := (hr.derives_iff t).mp ht
    exact .cons hc (ih hu)

/-! ## Runs of characters -/

/-- What follows a run is known by its first character. -/
theorem forall_head?_cons {P : Char → Prop} {c : Char} {s : Text} : (∀ d ∈ (c :: s).head?, P d) ↔ P c := by
  simp

section OneOf

variable {P : Char → Prop} {r : Rule} (hr : OneOf P r)

include hr

/-- **Runs of characters.** The repetition of one character of a class stands for the texts of such characters that are
    long enough and not too long. -/
theorem OneOf.derives_repetition_iff {min : Nat} {max : Option Nat} {s : Text} :
    Derives (repetition r min max) s ↔
      (∀ c ∈ s, P c) ∧ min ≤ s.length ∧ ∀ n ∈ max, s.length ≤ n := by
  rw [Rule.derives_repetition_iff]
  constructor
  · rintro ⟨parts, rfl, hparts, hmin, hmax⟩
    have hsingle : ∀ part ∈ parts, ∃ c, P c ∧ part = [c] := fun part hpart =>
      (hr.derives_iff part).mp (hparts part hpart)
    -- each part is one character
    have hlen : parts.flatten.length = parts.length := by
      clear hmin hmax hparts
      induction parts with
      | nil => rfl
      | cons part parts ih =>
        obtain ⟨c, -, rfl⟩ := hsingle part List.mem_cons_self
        rw [List.flatten_cons, List.length_append, ih fun q hq => hsingle q (List.mem_cons_of_mem _ hq)]
        exact Nat.add_comm 1 _
    refine ⟨?_, hlen ▸ hmin, fun n hn => hlen ▸ hmax n hn⟩
    intro c hc
    obtain ⟨part, hpart, hc⟩ := List.mem_flatten.mp hc
    obtain ⟨d, hd, rfl⟩ := hsingle part hpart
    rw [List.mem_singleton.mp hc]
    exact hd
  · rintro ⟨hs, hmin, hmax⟩
    have hlen : (s.map fun c => [c]).length = s.length := List.length_map _
    refine ⟨s.map fun c => [c], ?_, ?_, hlen ▸ hmin, fun n hn => hlen ▸ hmax n hn⟩
    · rw [← List.flatMap_def, List.flatMap_singleton']
    · intro part hpart
      obtain ⟨c, hc, rfl⟩ := List.mem_map.mp hpart
      exact (hr.derives_iff [c]).mpr ⟨c, hs c hc, rfl⟩

/-- The repetition of one character of a class takes a text of such characters, if the repetition may end there and the
    text cannot be longer. -/
theorem OneOf.takes_repetition {min : Nat} {max : Option Nat} {x rest : Text} (hx : ∀ c ∈ x, P c)
    (hmin : min ≤ x.length) (hmax : ∀ n ∈ max, x.length ≤ n)
    (hend : max = some x.length ∨ ∀ c ∈ rest.head?, ¬ P c) : (repetition r min max).Takes x rest := by
  -- on the text, with bounds that go down as its characters are taken
  induction x generalizing min max with
  | nil =>
    have hmin : min = 0 := Nat.le_zero.mp hmin
    subst hmin
    exact .repetition_nil (hend.imp id hr.parse?_eq_none)
  | cons c x ih =>
    have htake : r.Takes [c] (x ++ rest) := hr.takes (hx c List.mem_cons_self) (x ++ rest)
    have hzero : max ≠ some 0 := by
      rintro rfl
      exact absurd (hmax 0 rfl) (Nat.not_succ_le_zero x.length)
    rw [List.length_cons] at hmin hmax hend
    refine Takes.repetition_cons (x := [c]) (List.cons_ne_nil c []) hzero htake (ih ?_ ?_ ?_ ?_)
    · exact fun d hd => hx d (List.mem_cons_of_mem _ hd)
    · omega
    · intro n hn
      obtain ⟨k, hk, rfl⟩ := Option.map_eq_some_iff.mp hn
      have := hmax k hk
      omega
    · rcases hend with rfl | hend
      · exact Or.inl rfl
      · exact Or.inr hend

/-- At least one character of a class cannot be taken where the text goes on with another. -/
theorem OneOf.parse?_repetition_eq_none {min : Nat} {max : Option Nat} {s : Text} (hmin : 0 < min)
    (h : ∀ c ∈ s.head?, ¬ P c) : (repetition r min max).parse? s = none := by
  rw [parse?_repetition, hr.parse?_eq_none h, if_neg (Nat.ne_of_gt hmin)]
  split
  · rfl
  · split
    · rename_i hmax hfull
      subst hfull
      exact absurd hmin (by simpa using hmax)
    · rfl

/-! ### Any number of characters, and at least one -/

theorem OneOf.derives_many_iff {s : Text} : Derives (many r) s ↔ ∀ c ∈ s, P c := by
  rw [many, hr.derives_repetition_iff]
  exact ⟨fun h => h.1, fun h => ⟨h, Nat.zero_le _, fun _ hn => by cases hn⟩⟩

theorem OneOf.derives_many1_iff {s : Text} : Derives (many1 r) s ↔ s ≠ [] ∧ ∀ c ∈ s, P c := by
  rw [many1, hr.derives_repetition_iff, ← List.length_pos_iff]
  exact ⟨fun h => ⟨h.2.1, h.1⟩, fun h => ⟨h.2, h.1, fun _ hn => by cases hn⟩⟩

theorem OneOf.takes_many {x rest : Text} (hx : ∀ c ∈ x, P c) (hrest : ∀ c ∈ rest.head?, ¬ P c) :
    (many r).Takes x rest :=
  hr.takes_repetition hx (Nat.zero_le _) (fun _ hn => by cases hn) (Or.inr hrest)

theorem OneOf.takes_many1 {x rest : Text} (hne : x ≠ []) (hx : ∀ c ∈ x, P c) (hrest : ∀ c ∈ rest.head?, ¬ P c) :
    (many1 r).Takes x rest :=
  hr.takes_repetition hx (List.length_pos_iff.mpr hne) (fun _ hn => by cases hn) (Or.inr hrest)

theorem OneOf.parse?_many1_eq_none {s : Text} (h : ∀ c ∈ s.head?, ¬ P c) : (many1 r).parse? s = none :=
  hr.parse?_repetition_eq_none Nat.one_pos h

end OneOf

end HttpFields.Rule
