import HttpFields.Proofs.Parameter

/-!
# `HttpFields.Proofs.Quoted.Items` — a quoted string, item by item

Between the quotes stand items, each of them one character of the value: the character itself, or a backslash and the
character. A quoted string is cut into its items in one way only, for an item that starts with a backslash is never the
character itself. So it makes sense to speak of the items of a quoted string, and its value is read off them.

The reader of a parameter knows nothing of items. It takes away the first and the last quote and then one backslash
after the other, and it looks for the equals sign before it looks for quotes. It comes out at the items all the same.

* `Item`, `ofItems` — items, and the quoted string that is made of them.
* `Item.text_append_inj`, `ofItems_injective` — the cut is unique.
* `accepts_quotedString_iff_ofItems` — every quoted string is cut into items.
* `read?_parameter` — what is read off a parameter.
-/

namespace HttpFields

namespace Quoted

open Rule

/-! ## Items -/

/-- One character of a value, as it is written between quotes. -/
inductive Item where
  /-- The character stands for itself. -/
  | plain (c : Char) (h : IsQuotable c)
  /-- The character has a backslash before it. -/
  | pair (c : Char) (h : IsEscapable c)

namespace Item

/-- The text of an item. -/
def text : Item → Text
  | plain c _ => [c]
  | pair c _ => ['\\', c]

/-- The character that an item stands for. -/
def char : Item → Char
  | plain c _ => c
  | pair c _ => c

/-- **One item is cut off in one way**, whatever stands behind it. -/
theorem text_append_inj {i j : Item} {s t : Text} (h : i.text ++ s = j.text ++ t) : i = j ∧ s = t := by
  cases i with
  | plain c hc =>
    cases j with
    | plain d hd => simpa [text] using h
    | pair d hd =>
      -- a backslash is never the character itself
      simp only [text, List.cons_append, List.cons.injEq] at h
      exact absurd h.1 hc.2.2
  | pair c hc =>
    cases j with
    | plain d hd =>
      simp only [text, List.cons_append, List.cons.injEq] at h
      exact absurd h.1.symm hd.2.2
    | pair d hd => simpa [text] using h

theorem text_ne_nil (i : Item) : i.text ≠ [] := by cases i <;> simp [text]

end Item

/-- The text of items, one after the other. -/
def textOf (items : List Item) : Text := items.flatMap Item.text

/-- The value of items: a character for each. -/
def valueOf (items : List Item) : Text := items.map Item.char

/-- The quoted string that is made of items. -/
def ofItems (items : List Item) : Text := '"' :: (textOf items ++ ['"'])

@[simp] theorem textOf_nil : textOf [] = [] := rfl

@[simp] theorem textOf_cons (i : Item) (items : List Item) : textOf (i :: items) = i.text ++ textOf items := rfl

theorem textOf_injective : Function.Injective textOf := by
  intro items items' h
  induction items generalizing items' with
  | nil =>
    cases items' with
    | nil => rfl
    | cons j items' => simp [j.text_ne_nil] at h
  | cons i items ih =>
    cases items' with
    | nil => simp [i.text_ne_nil] at h
    | cons j items' =>
      rw [textOf_cons, textOf_cons] at h
      obtain ⟨hij, hrest⟩ := Item.text_append_inj h
      rw [hij, ih hrest]

/-- **The items of a quoted string are its own.** No two lists of items make the same quoted string. -/
theorem ofItems_injective : Function.Injective ofItems := by
  intro items items' h
  unfold ofItems at h
  have htail : textOf items ++ ['"'] = textOf items' ++ ['"'] := (List.cons.inj h).2
  exact textOf_injective (List.append_cancel_right htail)

/-! ## Items and quoted strings -/

theorem quotes_textOf (items : List Item) : Quotes (textOf items) (valueOf items) := by
  induction items with
  | nil => exact .nil
  | cons i items ih =>
    cases i with
    | plain c h => exact .plain h ih
    | pair c h => exact .pair h ih

/-- The text between quotes is cut into items, one for each step of its derivation. -/
theorem exists_items_of_quotes {inner value : Text} (h : Quotes inner value) : ∃ items, inner = textOf items := by
  induction h with
  | nil => exact ⟨[], textOf_nil.symm⟩
  | @plain c inner value hc _ ih =>
    obtain ⟨items, rfl⟩ := ih
    exact ⟨.plain c hc :: items, rfl⟩
  | @pair c inner value hc _ ih =>
    obtain ⟨items, rfl⟩ := ih
    exact ⟨.pair c hc :: items, rfl⟩

theorem isQuotedString_ofItems (items : List Item) : IsQuotedString (ofItems items) (valueOf items) :=
  ⟨textOf items, quotes_textOf items, rfl⟩

/-- **Every quoted string has items.** The texts that the rule for quoted strings matches in full are those that are made
    of items. -/
theorem accepts_quotedString_iff_ofItems {q : Text} : quotedString.accepts q = true ↔ ∃ items, q = ofItems items := by
  rw [accepts_quotedString_iff]
  constructor
  · rintro ⟨value, inner, hinner, rfl⟩
    obtain ⟨items, rfl⟩ := exists_items_of_quotes hinner
    exact ⟨items, rfl⟩
  · rintro ⟨items, rfl⟩
    exact ⟨valueOf items, isQuotedString_ofItems items⟩

end Quoted

/-! ## Parameters -/

/-- What is read off a parameter is its name and the value that its text stands for, with blanks around the equals
    sign. -/
theorem Parameter.read?_append {n w w' v value : Text} (hn : IsToken n) (hw : IsBlanks w) (hw' : IsBlanks w')
    (hv : IsValue v value) : read? (n ++ (w ++ '=' :: (w' ++ v))) = some (n, value) := by
  have htext : n ++ (w ++ '=' :: (w' ++ v)) = n ++ ((w ++ '=' :: w') ++ v) := by simp
  rw [htext]
  exact read?_of_isParameter ⟨w ++ '=' :: w', v, hn, ⟨w, w', hw, hw', rfl⟩, hv, rfl⟩

/-- **The value of a parameter.** A token is its own value. A quoted string has items, no two lists of them, and its
    value is a character for each. The characters are a tab, printable ASCII characters, or such above ASCII that fit an
    octet. -/
theorem read?_parameter {n w w' : Text} (hn : IsToken n) (hw : IsBlanks w) (hw' : IsBlanks w') (v : Text) :
    (Rule.token.accepts v = true →
        Parameter.read? (n ++ (w ++ '=' :: (w' ++ v))) = some (n, v) ∧ ∀ c ∈ v, IsEscapable c) ∧
      (Rule.quotedString.accepts v = true →
        ∃ items : List Quoted.Item, (∀ items', v = Quoted.ofItems items' ↔ items' = items) ∧
          Parameter.read? (n ++ (w ++ '=' :: (w' ++ v))) = some (n, Quoted.valueOf items) ∧
          ∀ c ∈ Quoted.valueOf items, IsEscapable c) := by
  constructor
  · intro haccepts
    have htoken : IsToken v := isToken_iff.mp haccepts
    have hv : IsValue v v := Or.inl ⟨htoken, rfl⟩
    exact ⟨Parameter.read?_append hn hw hw' hv, hv.isEscapable⟩
  · intro haccepts
    obtain ⟨items, rfl⟩ := Quoted.accepts_quotedString_iff_ofItems.mp haccepts
    have hv : IsValue (Quoted.ofItems items) (Quoted.valueOf items) := Or.inr (Quoted.isQuotedString_ofItems items)
    refine ⟨items, ?_, Parameter.read?_append hn hw hw' hv, hv.isEscapable⟩
    intro items'
    constructor
    · intro h
      exact (Quoted.ofItems_injective h).symm
    · intro h
      rw [h]

/-- Blanks around the equals sign, another one between the quotes, and an escaped backslash in front of the last quote. -/
theorem read?_parameter_escapes :
    let v : Text := ['"', 'a', '=', '\\', '"', '\\', '\\', '"']
    IsToken ['n'] ∧ IsBlanks [' '] ∧ IsBlanks ['\t', ' '] ∧
      Rule.quotedString.accepts v = true ∧
      Parameter.read? (['n'] ++ ([' '] ++ '=' :: (['\t', ' '] ++ v))) = some (['n'], ['a', '=', '"', '\\']) ∧
      Rule.token.accepts ['a', '-', 'b'] = true ∧
      Parameter.read? (['n'] ++ ([' '] ++ '=' :: (['\t', ' '] ++ ['a', '-', 'b']))) = some (['n'], ['a', '-', 'b']) := by
  intro v
  have hn : IsToken ['n'] := by decide
  have hw : IsBlanks [' '] := by simp [IsBlanks]
  have hw' : IsBlanks ['\t', ' '] := by simp [IsBlanks]
  have hquoted : Rule.quotedString.accepts v = true := by decide +kernel
  have htoken : Rule.token.accepts ['a', '-', 'b'] = true := by decide +kernel
  obtain ⟨items, hunique, hread, -⟩ := (read?_parameter hn hw hw' v).2 hquoted
  have hitems : [.plain 'a' (contains_quotable.mp (by decide)), .plain '=' (contains_quotable.mp (by decide)),
      .pair '"' (contains_escapable.mp (by decide)), .pair '\\' (contains_escapable.mp (by decide))] = items :=
    (hunique _).mp rfl
  rw [← hitems] at hread
  exact ⟨hn, hw, hw', hquoted, hread, htoken, ((read?_parameter hn hw hw' _).1 htoken).1⟩

end HttpFields
