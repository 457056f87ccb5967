/-!
# `HttpFields.Text` — texts and how they are cut

A field value is a list of characters, so that reading it is recursion on a list and every statement about
it is a statement about lists. This file holds the few ways of taking a text apart that do not depend on a
grammar: cutting at the first delimiter, removing blanks at an end, the words between white space, and reading one
item after another.

* `cutAt?_eq_some_iff` — a cut at `d` is the decomposition `a ++ d :: b` in which `a` is free of `d`.
* `cutAround?_append`, `splitOn_append_cons` — cuts at a longer delimiter, and at all places of a delimiter.
* `trimBlanks_append` — the blanks around a text are removed, and nothing else.
* `words_append_cons`, `words_cons` — the words of a text, one after the other.
* `readOn?_of_last`, `readOn?_of_step` — the items read off a text up to the last one, one step at a time.
* `readEach?_nil`, `readEach?_of_step` — the items read off a text until nothing is left.
-/

namespace HttpFields

/-- A text: its characters in order. A character is a Unicode scalar value. -/
abbrev Text := List Char

namespace Text

/-! ## Cutting at a delimiter -/

/-- The texts before and after the first `delimiter`, or nothing if there is none. -/
def cutAt? (delimiter : Char) : Text → Option (Text × Text)
  | [] => none
  | c :: s =>
    if c = delimiter then some ([], s)
    else (cutAt? delimiter s).map fun (before, after) => (c :: before, after)

/-- **The first occurrence.** A text is cut exactly where it reads `before`, free of the delimiter, then the
    delimiter, then `after`. -/
theorem cutAt?_eq_some_iff {d : Char} {s before after : Text} :
    cutAt? d s = some (before, after) ↔ s = before ++ d :: after ∧ d ∉ before := by
  induction s generalizing before with
  | nil => simp [cutAt?]
  | cons c s ih =>
    by_cases hc : c = d
    · subst hc
      cases before with
      | nil => simp [cutAt?, eq_comm]
      | cons b before =>
        simp only [cutAt?, if_true, Option.some.injEq, Prod.mk.injEq, List.cons_append, List.cons.injEq,
          List.mem_cons, not_or]
        constructor
        · intro h; simp at h
        · rintro ⟨⟨rfl, _⟩, h, _⟩; exact absurd rfl h
    · simp only [cutAt?, if_neg hc, Option.map_eq_some_iff, Prod.exists, Prod.mk.injEq]
      cases before with
      | nil => simp [hc]
      | cons b before =>
        constructor
        · rintro ⟨x, y, h, hb, rfl⟩
          obtain ⟨rfl, rfl⟩ := List.cons.inj hb
          obtain ⟨rfl, hx⟩ := ih.1 h
          exact ⟨rfl, by simp [hx, Ne.symm hc]⟩
        · rintro ⟨h, hb⟩
          obtain ⟨rfl, rfl⟩ := List.cons.inj h
          exact ⟨before, after, ih.2 ⟨rfl, fun hm => hb (by simp [hm])⟩, rfl, rfl⟩

/-- The texts before and after the first place where the delimiter stands, a text that is not empty, or nothing if
    there is none. -/
def cutAround? (delimiter : Text) : Text → Option (Text × Text)
  | [] => none
  | c :: s =>
    if delimiter <+: c :: s then some ([], (c :: s).drop delimiter.length)
    else (cutAround? delimiter s).map fun (before, after) => (c :: before, after)

/-- A text is cut at a delimiter whose first character does not stand in front of it. -/
theorem cutAround?_append {d : Char} {ds before after : Text} (h : d ∉ before) :
    cutAround? (d :: ds) (before ++ d :: (ds ++ after)) = some (before, after) := by
  induction before with
  | nil =>
    have hprefix : d :: ds <+: d :: (ds ++ after) := List.prefix_append (d :: ds) after
    have hdrop : (d :: (ds ++ after)).drop (d :: ds).length = after := List.drop_left
    rw [List.nil_append, cutAround?, if_pos hprefix, hdrop]
  | cons c before ih =>
    obtain ⟨hne, hbefore⟩ := not_or.mp (mt List.mem_cons.mpr h)
    have hnot : ¬ d :: ds <+: c :: (before ++ d :: (ds ++ after)) := fun hprefix =>
      hne (List.cons_prefix_cons.mp hprefix).1
    rw [List.cons_append, cutAround?, if_neg hnot, ih hbefore]
    rfl

/-- The first piece ends at the first delimiter. -/
theorem splitOn_append_cons {d : Char} {piece : Text} (h : d ∉ piece) (s : Text) :
    (piece ++ d :: s).splitOn d = piece :: s.splitOn d := by
  have hsplit : (piece ++ d :: s).splitOn d = piece.splitOn d ++ s.splitOn d :=
    List.splitOnP_append_cons (p := (· == d)) piece s (beq_self_eq_true d)
  rw [hsplit, List.splitOn_eq_singleton h]
  rfl

/-! ## Blanks -/

/-- A blank is a space or a horizontal tab; no other white space counts. -/
def isBlank (c : Char) : Bool := c = ' ' || c = '\t'

/-- The text without the blanks it starts with. -/
def dropBlanks (s : Text) : Text := s.dropWhile isBlank

/-- The text without the blanks it ends with. -/
def dropBlanksEnd (s : Text) : Text := (s.reverse.dropWhile isBlank).reverse

/-- The text without blanks at either end. -/
def trimBlanks (s : Text) : Text := s.dropBlanks.dropBlanksEnd

/-- Blanks in front of a text that starts with none of its own are removed, and nothing else. -/
theorem dropBlanks_append {w s : Text} (hw : ∀ c ∈ w, isBlank c) (hs : ∀ c ∈ s.head?, isBlank c = false) :
    dropBlanks (w ++ s) = s := by
  unfold dropBlanks
  rw [List.dropWhile_append_of_pos hw]
  cases s with
  | nil => rfl
  | cons c s => simp [hs c rfl]

/-- Blanks behind a text that ends with none of its own are removed, and nothing else. -/
theorem dropBlanksEnd_append {w s : Text} (hw : ∀ c ∈ w, isBlank c)
    (hs : ∀ c ∈ s.getLast?, isBlank c = false) : dropBlanksEnd (s ++ w) = s := by
  have h : dropBlanks (w.reverse ++ s.reverse) = s.reverse :=
    dropBlanks_append (by simpa using hw) (by simpa using hs)
  unfold dropBlanksEnd
  rw [List.reverse_append]
  exact (congrArg List.reverse h).trans (List.reverse_reverse s)

/-- Blanks around a text that neither starts nor ends with one are removed, and nothing else. -/
theorem trimBlanks_append {v s w : Text} (hv : ∀ c ∈ v, isBlank c) (hw : ∀ c ∈ w, isBlank c)
    (hne : s ≠ []) (hhead : ∀ c ∈ s.head?, isBlank c = false)
    (hlast : ∀ c ∈ s.getLast?, isBlank c = false) : trimBlanks (v ++ (s ++ w)) = s := by
  unfold trimBlanks
  rw [dropBlanks_append hv, dropBlanksEnd_append hw hlast]
  cases s with
  | nil => exact absurd rfl hne
  | cons c s => simpa using hhead

/-! ## Words -/

/-- White space of any script, line breaks among them. -/
def isWhiteSpace (c : Char) : Bool :=
  let n := c.toNat
  (9 ≤ n && n ≤ 13) || n = 0x20 || n = 0x85 || n = 0xa0 || n = 0x1680 || (0x2000 ≤ n && n ≤ 0x200a) || n = 0x2028 ||
    n = 0x2029 || n = 0x202f || n = 0x205f || n = 0x3000

/-- The words of a text: what stands between white space, however much of it there is. -/
def words (s : Text) : List Text := (s.splitOnP isWhiteSpace).filter (!·.isEmpty)

/-- The first word ends at the first white space. -/
theorem words_append_cons {w : Text} {c : Char} (hne : w ≠ []) (hw : ∀ d ∈ w, isWhiteSpace d = false)
    (hc : isWhiteSpace c = true) (s : Text) : words (w ++ c :: s) = w :: words s := by
  rw [words, List.splitOnP_append_cons_of_forall_mem hw c hc, List.filter_cons_of_pos, words]
  simpa using hne

/-- White space in front of the first word does not count. -/
theorem words_cons {c : Char} (hc : isWhiteSpace c = true) (s : Text) : words (c :: s) = words s := by
  have hsplit : List.splitOnP isWhiteSpace ([] ++ c :: s) = [] :: List.splitOnP isWhiteSpace s :=
    List.splitOnP_append_cons_of_forall_mem nofun c hc s
  rw [words, ← List.nil_append (c :: s), hsplit, List.filter_cons_of_neg, words]
  exact nofun

/-- A text without white space is a word. -/
theorem words_of_forall_mem {w : Text} (hne : w ≠ []) (hw : ∀ d ∈ w, isWhiteSpace d = false) : words w = [w] := by
  rw [words, List.splitOnP_eq_singleton hw, List.filter_cons_of_pos, List.filter_nil]
  simpa using hne

/-! ## Reading one item after another -/

section Items

variable {α : Type}

/-- The items that `step` reads off a text, which says with each item what to go on with, or that it was the last one.
    The number only bounds the steps. -/
def readOnWithin? (step : Text → Option (α × Option Text)) : Nat → Text → Option (List α)
  | 0, _ => none
  | bound + 1, s =>
    match step s with
    | none => none
    | some (item, none) => some [item]
    | some (item, some rest) => (readOnWithin? step bound rest).map (item :: ·)

/-- The items that `step` reads off a text, one after the other, up to the last one; nothing if a step fails, as it may
    where no text is left. Every step that goes on has to use up at least one character. -/
def readOn? (step : Text → Option (α × Option Text)) (s : Text) : Option (List α) :=
  readOnWithin? step (s.length + 1) s

/-- A step that reads the last item if it leaves nothing. -/
def untilEmpty (step : Text → Option (α × Text)) (s : Text) : Option (α × Option Text) :=
  (step s).map fun (item, rest) => (item, if rest = [] then none else some rest)

/-- The items that `step` reads off a text until nothing is left, and none if nothing was there. -/
def readEach? (step : Text → Option (α × Text)) (s : Text) : Option (List α) :=
  if s = [] then some [] else readOn? (untilEmpty step) s

/-- A longer bound on the number of steps changes no finished reading. -/
theorem readOnWithin?_mono {step : Text → Option (α × Option Text)} {bound bound' : Nat} {s : Text} {items : List α}
    (h : readOnWithin? step bound s = some items) (hb : bound ≤ bound') : readOnWithin? step bound' s = some items := by
  induction bound generalizing bound' s items with
  | zero => cases h
  | succ bound ih =>
    cases bound' with
    | zero => exact absurd hb (Nat.not_succ_le_zero bound)
    | succ bound' =>
      simp only [readOnWithin?] at h ⊢
      split at h
      · cases h
      · exact h
      · obtain ⟨items', hitems, rfl⟩ := Option.map_eq_some_iff.mp h
        exact Option.map_eq_some_iff.mpr ⟨items', ih hitems (Nat.le_of_succ_le_succ hb), rfl⟩

theorem readOn?_of_last {step : Text → Option (α × Option Text)} {s : Text} {item : α}
    (hstep : step s = some (item, none)) : readOn? step s = some [item] := by
  simp only [readOn?, readOnWithin?, hstep]

/-- If a step reads `item` and what it goes on with gives `items`, the whole gives `item :: items`. -/
theorem readOn?_of_step {step : Text → Option (α × Option Text)} {s rest : Text} {item : α} {items : List α}
    (hstep : step s = some (item, some rest)) (hlt : rest.length < s.length)
    (hrest : readOn? step rest = some items) : readOn? step s = some (item :: items) := by
  have hbound : readOnWithin? step s.length rest = some items := readOnWithin?_mono hrest hlt
  simp only [readOn?, readOnWithin?, hstep, hbound, Option.map_some]

@[simp] theorem readEach?_nil (step : Text → Option (α × Text)) : readEach? step [] = some [] := rfl

/-- If a step reads `item` and the rest of the text gives `items`, the whole gives `item :: items`. -/
theorem readEach?_of_step {step : Text → Option (α × Text)} {s rest : Text} {item : α} {items : List α}
    (hstep : step s = some (item, rest)) (hlt : rest.length < s.length)
    (hrest : readEach? step rest = some items) : readEach? step s = some (item :: items) := by
  have hne : s ≠ [] := List.ne_nil_of_length_pos (Nat.zero_lt_of_lt hlt)
  have hon : untilEmpty step s = some (item, if rest = [] then none else some rest) := by
    rw [untilEmpty, hstep, Option.map_some]
  rw [readEach?, if_neg hne]
  by_cases hnil : rest = []
  · subst hnil
    obtain rfl : [] = items := Option.some.inj hrest
    exact readOn?_of_last hon
  · rw [if_neg hnil] at hon
    rw [readEach?, if_neg hnil] at hrest
    exact readOn?_of_step hon hlt hrest

end Items

end Text

end HttpFields
