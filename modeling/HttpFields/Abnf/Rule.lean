import HttpFields.Text

/-!
# `HttpFields.Abnf.Rule` — grammar rules and what they match

A rule is built from four primitives: a terminal character, a sequence, an ordered choice and a bounded repetition.
Applied to a text it matches a prefix of it or fails. Matching is greedy and never goes back: a sub-rule keeps its
match even if what follows it then fails, and a choice keeps the first alternative that matches.

## Contents
* **The data type** — `Rule`, the derived forms, and its induction principle.
* **Matching** — `parse?` and `accepts`.
* **Equations** — what `parse?` does on each form, free of the bound on repetitions (`parse?_repetition`).
* **The match splits the text** — `taken_append_rest`.
* **Derived forms** — what an optional rule and a literal text match.
* **Matching all of a text** — `accepts_iff`.
-/

namespace HttpFields

/-! ## The data type -/

/-- A grammar rule. -/
inductive Rule where
  /-- The one given character. -/
  | terminal (value : Char)
  /-- The given rules one after the other, each applied to what the one before it left over. -/
  | sequence (rules : List Rule)
  /-- The first of the given rules that matches. -/
  | choice (rules : List Rule)
  /-- The given rule as many times as it matches, at least `min` times and at most `max` times. -/
  | repetition (rule : Rule) (min : Nat) (max : Option Nat)

namespace Rule

instance : Coe Char Rule := ⟨terminal⟩

/-- The characters from `low` to `high`, both included, in order; none if `high` comes first. Code points that are
    no characters (the surrogates) are left out. -/
def charactersBetween (low high : Char) : List Char :=
  ((List.range' low.toNat (high.toNat + 1 - low.toNat)).filter fun n => decide n.isValidChar).map Char.ofNat

/-- The given text, character by character. -/
def literal (text : Text) : Rule := .sequence (text.map terminal)

/-- Any one character from `low` to `high`, both included. -/
def between (low high : Char) : Rule := .choice ((charactersBetween low high).map terminal)

/-- The given rule once, or nothing if it does not match. -/
def optional (rule : Rule) : Rule := .repetition rule 0 (some 1)

/-- The given rule any number of times. -/
def many (rule : Rule) : Rule := .repetition rule 0 none

/-- The given rule at least once. -/
def many1 (rule : Rule) : Rule := .repetition rule 1 none

/-- The given rule exactly `count` times. -/
def exactly (count : Nat) (rule : Rule) : Rule := .repetition rule count (some count)

/-- A code point is among the characters between two others exactly when it lies between them. -/
theorem mem_charactersBetween {low high c : Char} : c ∈ charactersBetween low high ↔ low ≤ c ∧ c ≤ high := by
  simp only [charactersBetween, List.mem_map, List.mem_filter, List.mem_range'_1, decide_eq_true_eq,
    Char.le_def, UInt32.le_iff_toNat_le]
  constructor
  · rintro ⟨n, ⟨hn, hv⟩, rfl⟩
    have : (Char.ofNat n).toNat = n := by rw [Char.ofNat, dif_pos hv]; rfl
    simp only [Char.toNat] at *
    omega
  · intro h
    refine ⟨c.toNat, ⟨?_, c.valid⟩, Char.ofNat_toNat c⟩
    simp only [Char.toNat] at *
    omega

/-- **Induction on rules.** A property holds of every rule if each form has it whenever its sub-rules do. -/
theorem induction {motive : Rule → Prop} (terminal : ∀ c, motive (.terminal c))
    (sequence : ∀ rules, (∀ r ∈ rules, motive r) → motive (.sequence rules))
    (choice : ∀ rules, (∀ r ∈ rules, motive r) → motive (.choice rules))
    (repetition : ∀ rule min max, motive rule → motive (.repetition rule min max)) (rule : Rule) : motive rule :=
  @Rule.rec motive (fun rules => ∀ r ∈ rules, motive r) terminal sequence choice repetition
    (fun _ h => absurd h List.not_mem_nil)
    (fun _ _ head tail _ h => (List.mem_cons.1 h).elim (fun e => e ▸ head) (tail _)) rule

end Rule

/-! ## Matching -/

/-- A successful match: the prefix of the text that was matched, and what follows it. -/
structure Match where
  taken : Text
  rest : Text
  deriving DecidableEq, Repr

namespace Match

/-- The match of nothing in front of a text. -/
def empty (s : Text) : Match := ⟨[], s⟩

/-- The match that took the given characters first. -/
def prepend (first : Text) (m : Match) : Match := ⟨first ++ m.taken, m.rest⟩

/-- The parts of the match put together again. -/
def whole (m : Match) : Text := m.taken ++ m.rest

@[simp] theorem whole_empty (s : Text) : (empty s).whole = s := rfl

@[simp] theorem whole_prepend (first : Text) (m : Match) : (m.prepend first).whole = first ++ m.whole :=
  List.append_assoc ..

@[simp] theorem prepend_nil (m : Match) : m.prepend [] = m := rfl

@[simp] theorem prepend_prepend (s t : Text) (m : Match) : (m.prepend t).prepend s = m.prepend (s ++ t) := by
  simp [prepend]

/-- A match with nothing in front of it is the match. -/
theorem map_prepend_nil (o : Option Match) : o.map (prepend []) = o := by
  cases o <;> simp

/-- What is put in front of a match in two goes may be put there in one. -/
theorem map_prepend_map_prepend (s t : Text) (o : Option Match) :
    (o.map (prepend t)).map (prepend s) = o.map (prepend (s ++ t)) := by
  cases o <;> simp

theorem length_rest_le {m : Match} {s : Text} (h : m.whole = s) : m.rest.length ≤ s.length := by
  rw [← h, whole, List.length_append]
  exact Nat.le_add_left ..

/-- The rest of a match that takes something is shorter than the text. -/
theorem length_rest_lt {m : Match} {s : Text} (h : m.whole = s) (htaken : m.taken ≠ []) :
    m.rest.length < s.length := by
  rw [← h, whole, List.length_append]
  exact Nat.lt_add_of_pos_left (List.length_pos_iff.mpr htaken)

end Match

namespace Rule

/-- Repeats a matcher up to `max` times and asks for `min` matches. An empty match ends the repetition with
    success, for all further repetitions would match nothing as well. The first text only bounds the number of
    repetitions: each one that goes on has used up at least one character.

    The two numbers are what is still asked for and still allowed, and go down by one with each match. A loop that
    counts its matches up from zero, and keeps its place in the text instead of the rest of it, takes the same
    decisions: it stops where its count has come to `max`, and has to come to `min`. -/
def repeatWithin? (item : Text → Option Match) (bound : Text) (min : Nat) (max : Option Nat) (s : Text) :
    Option Match :=
  if max = some 0 then if min = 0 then some (.empty s) else none
  else
    match item s with
    | none => if min = 0 then some (.empty s) else none
    | some ⟨[], _⟩ => some (.empty s)
    | some ⟨c :: taken, rest⟩ =>
      match bound with
      | [] => none
      | _ :: bound => (repeatWithin? item bound (min - 1) (max.map (· - 1)) rest).map (.prepend (c :: taken))

mutual

/-- The match of a rule at the start of a text, if there is one. -/
def parse? : Rule → Text → Option Match
  | .terminal _, [] => none
  | .terminal value, c :: s => if c = value then some ⟨[c], s⟩ else none
  | .sequence rules, s => parseEach? rules s
  | .choice rules, s => parseFirst? rules s
  | .repetition rule min max, s =>
    if max.any (· < min) then none else repeatWithin? rule.parse? s min max s

/-- The match of rules one after the other. -/
def parseEach? : List Rule → Text → Option Match
  | [], s => some (.empty s)
  | rule :: rules, s =>
    match rule.parse? s with
    | none => none
    | some m => (parseEach? rules m.rest).map (.prepend m.taken)

/-- The match of the first rule that has one. -/
def parseFirst? : List Rule → Text → Option Match
  | [], _ => none
  | rule :: rules, s =>
    match rule.parse? s with
    | none => parseFirst? rules s
    | some m => some m

end

/-- The text matched, provided that the rule matches all of the given text. -/
def parseAll? (rule : Rule) (s : Text) : Option Text :=
  match rule.parse? s with
  | some ⟨taken, []⟩ => some taken
  | _ => none

/-- Whether the rule matches all of a text. -/
def accepts (rule : Rule) (s : Text) : Bool := (rule.parseAll? s).isSome

/-! ## Equations -/

@[simp] theorem parse?_terminal_nil (v : Char) : (terminal v).parse? [] = none := rfl

@[simp] theorem parse?_terminal_cons (v c : Char) (s : Text) :
    (terminal v).parse? (c :: s) = if c = v then some ⟨[c], s⟩ else none := rfl

@[simp] theorem parse?_sequence_nil (s : Text) : (sequence []).parse? s = some (.empty s) := rfl

/-- The first rule of a sequence matches, and the others go on with what it left over. -/
theorem parse?_sequence_cons (r : Rule) (rs : List Rule) (s : Text) :
    (sequence (r :: rs)).parse? s =
      (r.parse? s).bind fun m => ((sequence rs).parse? m.rest).map (.prepend m.taken) := by
  show (match r.parse? s with
    | none => none
    | some m => ((sequence rs).parse? m.rest).map (Match.prepend m.taken)) = _
  cases r.parse? s <;> rfl

@[simp] theorem parse?_choice_nil (s : Text) : (choice []).parse? s = none := rfl

/-- The first rule of a choice is tried first, the others on the same text if it fails. -/
theorem parse?_choice_cons (r : Rule) (rs : List Rule) (s : Text) :
    (choice (r :: rs)).parse? s = (r.parse? s).or ((choice rs).parse? s) := by
  show (match r.parse? s with
    | none => (choice rs).parse? s
    | some m => some m) = _
  cases r.parse? s <;> rfl

/-! ## The match splits the text -/

private theorem repeatWithin?_whole {item : Text → Option Match} (h : ∀ s m, item s = some m → m.whole = s)
    (bound : Text) (min : Nat) (max : Option Nat) (s : Text) (m : Match)
    (hm : repeatWithin? item bound min max s = some m) : m.whole = s := by
  induction bound generalizing min max s m with
  | nil =>
    unfold repeatWithin? at hm
    split at hm
    · split at hm <;> simp_all [Match.whole_empty, eq_comm]
    · split at hm
      · split at hm <;> simp_all [Match.whole_empty, eq_comm]
      · cases hm; rfl
      · simp at hm
  | cons b bound ih =>
    unfold repeatWithin? at hm
    split at hm
    · split at hm <;> simp_all [Match.whole_empty, eq_comm]
    · split at hm
      · split at hm <;> simp_all [Match.whole_empty, eq_comm]
      · cases hm; rfl
      · rename_i c taken rest hitem
        obtain ⟨m', hm', rfl⟩ := Option.map_eq_some_iff.1 hm
        rw [Match.whole_prepend, ih _ _ _ _ hm']
        exact h _ _ hitem

/-- **Nothing is lost.** The matched prefix followed by the rest is the text the rule was applied to. -/
theorem whole_of_parse? {r : Rule} {s : Text} {m : Match} (h : r.parse? s = some m) : m.whole = s := by
  induction r using Rule.induction generalizing s m with
  | terminal v =>
    cases s with
    | nil => simp at h
    | cons c s =>
      rw [parse?_terminal_cons] at h
      split at h
      · cases h; rfl
      · cases h
  | sequence rs ih =>
    induction rs generalizing s m with
    | nil => rw [parse?_sequence_nil] at h; cases h; rfl
    | cons r rs ihrs =>
      rw [parse?_sequence_cons] at h
      obtain ⟨m₁, h₁, h⟩ := Option.bind_eq_some_iff.1 h
      obtain ⟨m₂, h₂, rfl⟩ := Option.map_eq_some_iff.1 h
      have := ihrs (fun r hr => ih r (List.mem_cons_of_mem _ hr)) h₂
      rw [Match.whole_prepend, this]
      exact ih r List.mem_cons_self h₁
  | choice rs ih =>
    induction rs generalizing s m with
    | nil => simp at h
    | cons r rs ihrs =>
      rw [parse?_choice_cons] at h
      rcases Option.or_eq_some_iff.1 h with h | ⟨_, h⟩
      · exact ih r List.mem_cons_self h
      · exact ihrs (fun r hr => ih r (List.mem_cons_of_mem _ hr)) h
  | repetition r min max ih =>
    simp only [parse?] at h
    split at h
    · cases h
    · exact repeatWithin?_whole (fun s m => ih) _ _ _ _ _ h

theorem taken_append_rest {r : Rule} {s : Text} {m : Match} (h : r.parse? s = some m) : m.taken ++ m.rest = s :=
  whole_of_parse? h

/-! ## Repetition without its bound -/

private theorem repeatWithin?_bound {item : Text → Option Match} (h : ∀ s m, item s = some m → m.whole = s)
    (bound bound' : Text) (min : Nat) (max : Option Nat) (s : Text) (hb : s.length ≤ bound.length)
    (hb' : s.length ≤ bound'.length) :
    repeatWithin? item bound min max s = repeatWithin? item bound' min max s := by
  induction bound generalizing bound' min max s with
  | nil =>
    have hs : s = [] := List.length_eq_zero_iff.1 (Nat.le_zero.1 hb)
    subst hs
    unfold repeatWithin?
    split
    · rfl
    · split
      · rfl
      · rfl
      · rename_i c taken rest hitem
        exact absurd (h _ _ hitem) (by simp [Match.whole])
  | cons b bound ih =>
    unfold repeatWithin?
    split
    · rfl
    · split
      · rfl
      · rfl
      · rename_i c taken rest hitem
        have hs := h _ _ hitem
        subst hs
        cases bound' with
        | nil => simp [Match.whole] at hb'
        | cons b' bound' =>
          simp only [Match.whole, List.cons_append, List.length_cons, List.length_append] at hb hb'
          exact congrArg (Option.map (Match.prepend (c :: taken))) (ih bound' _ _ rest (by omega) (by omega))

/-- **One repetition.** A repetition whose minimum exceeds its maximum fails. Otherwise it applies its rule once, if
    the maximum allows it, and goes on with the rest of the text and both counts lowered by one; it ends where the
    rule fails, which is a failure as long as the minimum is not reached, and with success where the rule matches
    nothing. -/
theorem parse?_repetition (r : Rule) (min : Nat) (max : Option Nat) (s : Text) :
    (repetition r min max).parse? s =
      if max.any (· < min) then none
      else if max = some 0 then some (.empty s)
      else
        match r.parse? s with
        | none => if min = 0 then some (.empty s) else none
        | some m =>
          if m.taken = [] then some (.empty s)
          else ((repetition r (min - 1) (max.map (· - 1))).parse? m.rest).map (.prepend m.taken) := by
  rw [parse?]
  split
  · rfl
  · rename_i hmax
    rw [repeatWithin?.eq_def]
    split
    · rename_i hzero
      simp_all
    · rename_i hzero
      have hmax' : ((max.map (· - 1)).any (· < min - 1)) = false := by
        cases max with
        | none => rfl
        | some n =>
          simp only [Option.any_some, decide_eq_true_eq, Option.some.injEq, Option.map_some,
            decide_eq_false_iff_not] at *
          omega
      cases hitem : r.parse? s with
      | none => rfl
      | some m =>
        obtain ⟨taken, rest⟩ := m
        cases taken with
        | nil => rfl
        | cons c taken =>
          have hs := whole_of_parse? hitem
          subst hs
          simp only [parse?, hmax', Match.whole, List.cons_append, reduceCtorEq, if_false, Bool.false_eq_true]
          exact congrArg _ (repeatWithin?_bound (fun s m => whole_of_parse?) _ _ _ _ rest (by simp)
            (Nat.le_refl _))

/-! ## Derived forms -/

/-- An optional rule matches what its rule matches, and nothing if that fails. -/
theorem parse?_optional (r : Rule) (s : Text) : (optional r).parse? s = some ((r.parse? s).getD (.empty s)) := by
  rw [optional, parse?_repetition]
  cases h : r.parse? s with
  | none => simp
  | some m =>
    obtain ⟨taken, rest⟩ := m
    have hs : taken ++ rest = s := taken_append_rest h
    by_cases ht : taken = []
    · subst ht
      simp_all [Match.empty]
    · simp [ht, parse?_repetition, Match.prepend, Match.empty]

/-- A literal text matches where a text starts with it. -/
theorem parse?_literal_append (t s : Text) : (literal t).parse? (t ++ s) = some ⟨t, s⟩ := by
  unfold literal
  induction t with
  | nil => exact parse?_sequence_nil s
  | cons c t ih => simp [parse?_sequence_cons, ih, Match.prepend]

/-- A literal text takes itself and nothing else. -/
theorem taken_of_parse?_literal {t s : Text} {m : Match} (h : (literal t).parse? s = some m) : m.taken = t := by
  unfold literal at h
  induction t generalizing s m with
  | nil =>
    rw [List.map_nil, parse?_sequence_nil] at h
    cases h
    rfl
  | cons c t ih =>
    rw [List.map_cons, parse?_sequence_cons] at h
    obtain ⟨m₁, h₁, h⟩ := Option.bind_eq_some_iff.1 h
    obtain ⟨m₂, h₂, rfl⟩ := Option.map_eq_some_iff.1 h
    cases s with
    | nil => simp at h₁
    | cons d s =>
      rw [parse?_terminal_cons] at h₁
      split at h₁
      · cases h₁
        simp_all [Match.prepend, ih h₂]
      · cases h₁

/-! ## Matching all of a text -/

theorem parseAll?_eq_some_iff {r : Rule} {s t : Text} :
    r.parseAll? s = some t ↔ r.parse? s = some ⟨s, []⟩ ∧ t = s := by
  unfold parseAll?
  constructor
  · intro h
    split at h
    · rename_i taken hm
      have := taken_append_rest hm
      simp only [List.append_nil] at this
      cases h
      exact ⟨this ▸ hm, this⟩
    · cases h
  · rintro ⟨h, rfl⟩
    simp [h]

/-- A rule accepts a text exactly when it matches it with nothing left over. -/
theorem accepts_iff {r : Rule} {s : Text} : r.accepts s = true ↔ r.parse? s = some ⟨s, []⟩ := by
  rw [accepts, Option.isSome_iff_exists]
  simp [parseAll?_eq_some_iff]

end Rule

end HttpFields
