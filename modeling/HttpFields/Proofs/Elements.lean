import HttpFields.Elements
import HttpFields.Proofs.Token

/-!
# `HttpFields.Proofs.Elements` — lists with commas between their elements

A list of elements and the items they stand for, whatever the elements are. An element is a text without blanks at its
start that its rule takes in front of a blank or a comma, and such a rule makes lists of its elements readable: no
element swallows the comma behind it.

* `IsSeparator`, `Separated` — delimiters with blanks around them, and lists.
* `separated_intercalate` — joined elements are a list.
* `separated_of_derives`, `takes_separated` — the rule for a list.
* `separated_iff_texts` — a list of items as a list of their texts.
* `forall₂_elements` — the elements that are read off a list.
-/

namespace HttpFields

/-! ## Separators and lists -/

/-- The delimiter with optional blanks on both sides. -/
def IsSeparator (d : Char) (s : Text) : Prop := ∃ w w', IsBlanks w ∧ IsBlanks w' ∧ s = w ++ d :: w'

/-- The text is a list of one element or more, with commas between them, that stand for the items in order. -/
inductive Separated {α : Type} (R : Text → α → Prop) : Text → List α → Prop where
  | one {x : Text} {a : α} : R x a → Separated R x [a]
  | cons {x s l : Text} {a : α} {items : List α} :
      R x a → IsSeparator ',' s → Separated R l items → Separated R (x ++ (s ++ l)) (a :: items)

theorem IsSeparator.ne_nil {d : Char} {s : Text} (h : IsSeparator d s) : s ≠ [] := by
  obtain ⟨w, w', -, -, rfl⟩ := h
  exact List.append_ne_nil_of_right_ne_nil w (List.cons_ne_nil d w')

/-- A separator starts with a blank or with its delimiter. -/
theorem IsSeparator.head {d : Char} {s : Text} (h : IsSeparator d s) (rest : Text) :
    ∀ c ∈ (s ++ rest).head?, Text.isBlank c = true ∨ c = d := by
  obtain ⟨w, w', hw, -, rfl⟩ := h
  cases w with
  | nil =>
    rintro c ⟨⟩
    exact Or.inr rfl
  | cons b w =>
    rintro c ⟨⟩
    exact Or.inl (isBlank_iff.mpr (hw b List.mem_cons_self))

/-- The blanks behind a separator may count for it. -/
theorem IsSeparator.append {d : Char} {s b : Text} (h : IsSeparator d s) (hb : IsBlanks b) :
    IsSeparator d (s ++ b) := by
  obtain ⟨w, w', hw, hw', rfl⟩ := h
  refine ⟨w, w' ++ b, hw, List.forall_mem_append.mpr ⟨hw', hb⟩, ?_⟩
  rw [List.append_assoc, List.cons_append]

/-- Blanks at the start of a separator may count for what is in front of it. -/
theorem IsSeparator.exists_of_append_eq {d : Char} (hd : Text.isBlank d = false) {s t b u : Text}
    (h : IsSeparator d s) (hb : IsBlanks b) (heq : s ++ t = b ++ u) : ∃ s', IsSeparator d s' ∧ u = s' ++ t := by
  obtain ⟨w, w', hw, hw', rfl⟩ := h
  induction b generalizing w with
  | nil => exact ⟨w ++ d :: w', ⟨w, w', hw, hw', rfl⟩, heq.symm⟩
  | cons c b ih =>
    obtain ⟨hc, hb⟩ := List.forall_mem_cons.mp hb
    cases w with
    | nil =>
      -- the delimiter is no blank
      obtain rfl : d = c := (List.cons.inj heq).1
      rw [isBlank_iff.mpr hc] at hd
      cases hd
    | cons _ w => exact ih hb w (List.forall_mem_cons.mp hw).2 (List.cons.inj heq).2

/-- A list starts like its first element. -/
theorem Separated.head {α : Type} {R : Text → α → Prop}
    (hhead : ∀ x a rest, R x a → ∀ c ∈ (x ++ rest).head?, Text.isBlank c = false) {l : Text} {items : List α}
    (h : Separated R l items) : ∀ c ∈ l.head?, Text.isBlank c = false := by
  cases h with
  | one hx =>
    rw [← List.append_nil l]
    exact hhead _ _ [] hx
  | cons hx _ _ => exact hhead _ _ _ hx

theorem Separated.items_ne_nil {α : Type} {R : Text → α → Prop} {l : Text} {items : List α} (h : Separated R l items) :
    items ≠ [] := by
  cases h with
  | one _ => exact List.cons_ne_nil _ _
  | cons _ _ _ => exact List.cons_ne_nil _ _

/-- A list is no empty text if its elements are none. -/
theorem Separated.ne_nil {α : Type} {R : Text → α → Prop} (hne : ∀ x a, R x a → x ≠ []) {l : Text} {items : List α}
    (h : Separated R l items) : l ≠ [] := by
  cases h with
  | one hx => exact hne _ _ hx
  | cons hx _ _ => exact List.append_ne_nil_of_left_ne_nil (hne _ _ hx) _

/-- What an element stands for has a property if that follows for each element. -/
theorem Separated.forall_mem {α : Type} {R : Text → α → Prop} {P : α → Prop} (hP : ∀ x a, R x a → P a) {l : Text}
    {items : List α} (h : Separated R l items) : ∀ a ∈ items, P a := by
  induction h with
  | one hx => exact List.forall_mem_singleton.mpr (hP _ _ hx)
  | cons hx _ _ ih => exact List.forall_mem_cons.mpr ⟨hP _ _ hx, ih⟩

/-- **Joined elements are a list**, of the items that the elements were written for. -/
theorem separated_intercalate {α : Type} {R : Text → α → Prop} {s : Text} (hs : IsSeparator ',' s) {write : α → Text}
    {items : List α} (hne : items ≠ []) (h : ∀ a ∈ items, R (write a) a) :
    Separated R (s.intercalate (items.map write)) items := by
  induction items with
  | nil => exact absurd rfl hne
  | cons a items ih =>
    obtain ⟨ha, hitems⟩ := List.forall_mem_cons.mp h
    cases items with
    | nil =>
      rw [List.map_singleton, List.intercalate_singleton]
      exact .one ha
    | cons b items =>
      rw [List.map_cons, List.map_cons, List.intercalate_cons_cons, List.append_assoc]
      exact .cons ha hs (ih (List.cons_ne_nil b items) hitems)

/-- **Texts and items.** A list whose elements stand for items is a list of texts that stand for them one by one. -/
theorem separated_iff_texts {α : Type} {P : Text → Prop} {S : Text → α → Prop} {l : Text} {items : List α} :
    Separated (fun x a => P x ∧ S x a) l items ↔
      ∃ texts, Separated (fun x text => x = text ∧ P x) l texts ∧ List.Forall₂ S texts items := by
  constructor
  · intro h
    induction h with
    | @one x a hx => exact ⟨[x], .one ⟨rfl, hx.1⟩, .cons hx.2 .nil⟩
    | @cons x s l a items hx hs _ ih =>
      obtain ⟨texts, htexts, hitems⟩ := ih
      exact ⟨x :: texts, .cons ⟨rfl, hx.1⟩ hs htexts, .cons hx.2 hitems⟩
  · rintro ⟨texts, h, hitems⟩
    induction h generalizing items with
    | one hx =>
      obtain ⟨rfl, hP⟩ := hx
      cases hitems with
      | cons hitem hnil =>
        cases hnil
        exact .one ⟨hP, hitem⟩
    | cons hx hs _ ih =>
      obtain ⟨rfl, hP⟩ := hx
      cases hitems with
      | cons hitem hitems => exact .cons ⟨hP, hitem⟩ hs (ih hitems)

namespace Rule

/-! ## The rules -/

theorem isSeparator_of_derives {d : Char} {s : Text} (h : Derives (separator d) s) : IsSeparator d s := by
  obtain ⟨w, _, rfl, hw, hs⟩ := derives_sequence_cons_iff.mp h
  obtain ⟨_, w', rfl, hd, hw'⟩ := derives_sequence_cons_iff.mp hs
  rw [derives_terminal_iff.mp hd]
  exact ⟨w, w', derives_blanks_iff.mp hw, derives_blanks_iff.mp (derives_sequence_singleton_iff.mp hw'), rfl⟩

theorem takes_separator {d : Char} (hd : Text.isBlank d = false) {s rest : Text} (h : IsSeparator d s)
    (hrest : ∀ c ∈ rest.head?, Text.isBlank c = false) : (separator d).Takes s rest := by
  obtain ⟨w, w', hw, hw', rfl⟩ := h
  refine Takes.cons (takes_blanks hw ?_) (Takes.cons (Takes.terminal d _) (takes_blanks hw' hrest).singleton)
  rintro c ⟨⟩
  exact hd

section Separated

variable {α : Type} {R : Text → α → Prop} {element : Rule}

/-- What the rule for a list stands for is a list, if what the rule for an element stands for is an element. -/
theorem separated_of_derives (helement : ∀ x, Derives element x → ∃ a, R x a) {l : Text}
    (h : Derives (separated element) l) : ∃ items, Separated R l items := by
  obtain ⟨x, t, rfl, hx, ht⟩ := derives_sequence_cons_iff.mp h
  obtain ⟨a, ha⟩ := helement x hx
  have hmany : Derives (many (.sequence [separator ',', element])) t := derives_sequence_singleton_iff.mp ht
  -- on the pairs of a separator and an element, each of which becomes the first element of the rest
  have hrest : ∀ x a, R x a → ∃ items, Separated R (x ++ t) items := by
    refine hmany.many_induction (P := fun t => ∀ x a, R x a → ∃ items, Separated R (x ++ t) items) ?_ ?_
    · intro x a hx
      rw [List.append_nil]
      exact ⟨[a], .one hx⟩
    · intro pair t hpair ih x a hx
      obtain ⟨s, y, rfl, hsep, hy⟩ := derives_sequence_cons_iff.mp hpair
      obtain ⟨b, hb⟩ := helement y (derives_sequence_singleton_iff.mp hy)
      obtain ⟨items, hitems⟩ := ih y b hb
      rw [List.append_assoc]
      exact ⟨a :: items, .cons hx (isSeparator_of_derives hsep) hitems⟩
  exact hrest x a ha

/-- **Lists are taken whole.** The rule for a list takes all of a list, if the rule for an element takes an element in
    front of a blank, a comma or the end of the text. -/
theorem takes_separated
    (hhead : ∀ x a rest, R x a → ∀ c ∈ (x ++ rest).head?, Text.isBlank c = false)
    (htakes : ∀ x a rest, R x a → (∀ c ∈ rest.head?, Text.isBlank c = true ∨ c = ',') → element.Takes x rest)
    {l : Text} {items : List α} (h : Separated R l items) : (separated element).Takes l [] := by
  induction h with
  | @one x a hx =>
    have hnone : (sequence [separator ',', element]).parse? [] = none := by
      rw [parse?_sequence_cons]
      rfl
    have hmany : (many (.sequence [separator ',', element])).Takes [] [] := .repetition_nil (.inr hnone)
    have hlist : (separated element).Takes (x ++ []) [] := .cons (htakes x a [] hx nofun) hmany.singleton
    rwa [List.append_nil] at hlist
  | @cons x s l a items hx hs hl ih =>
    -- the rest of the list is an element, and pairs of a separator and an element behind it
    obtain ⟨m, hm, hrest⟩ := accepts_sequence_cons_iff.mp (accepts_iff_takes.mpr ih)
    have hmany := accepts_iff_takes.mp (accepts_sequence_singleton_iff.mp hrest)
    rw [← taken_append_rest hm] at hl ⊢
    have hpair : (sequence [separator ',', element]).Takes (s ++ m.taken) m.rest := by
      refine .cons (takes_separator rfl hs ?_) (takes_of_parse? hm).singleton
      exact hl.head hhead
    rw [← List.append_assoc s]
    refine .cons (htakes x a _ hx ?_) (Takes.singleton (.repetition_cons ?_ nofun ?_ hmany))
    · rw [List.append_nil, List.append_assoc]
      exact hs.head _
    · exact List.append_ne_nil_of_left_ne_nil hs.ne_nil _
    · rw [List.append_nil]
      exact hpair

end Separated

end Rule

/-! ## Reading the elements -/

namespace Text

/-- A blank at the start of a list belongs to no element. -/
theorem elements_cons_of_isBlank {b : Char} (hb : isBlank b = true) (s : Text) : elements (b :: s) = elements s := by
  have hcomma : ¬ (b == ',') = true := by
    intro h
    rw [eq_of_beq h] at hb
    cases hb
  obtain ⟨piece, pieces, hsplit⟩ := List.exists_cons_of_ne_nil (List.splitOn_ne_nil ',' s)
  have htrim : trimBlanks (b :: piece) = trimBlanks piece := by
    rw [trimBlanks, dropBlanks, List.dropWhile_cons_of_pos hb]
    rfl
  rw [elements, elements, hsplit]
  rw [List.splitOn] at hsplit ⊢
  rw [List.splitOnP_cons_eq_if_modifyHead, if_neg hcomma, hsplit, List.modifyHead_cons, List.map_cons, htrim,
    List.map_cons]

theorem elements_append_of_isBlanks {w : Text} (hw : IsBlanks w) (s : Text) : elements (w ++ s) = elements s := by
  induction w with
  | nil => rfl
  | cons b w ih =>
    obtain ⟨hb, hw⟩ := List.forall_mem_cons.mp hw
    rw [List.cons_append, elements_cons_of_isBlank (isBlank_iff.mpr hb), ih hw]

/-- The first element ends at the first comma. -/
theorem elements_append_cons {x : Text} (hx : ',' ∉ x) (s : Text) :
    elements (x ++ ',' :: s) = x.trimBlanks :: elements s := by
  rw [elements, splitOn_append_cons hx]
  rfl

/-- A text that can be told from the separators around it: it is not empty and holds neither a comma nor a blank. -/
def IsSolid (x : Text) : Prop := x ≠ [] ∧ ∀ c ∈ x, isBlank c = false ∧ c ≠ ','

theorem IsSolid.not_mem {x : Text} (h : IsSolid x) : ',' ∉ x := fun hmem => (h.2 ',' hmem).2 rfl

theorem IsSolid.head {x : Text} (h : IsSolid x) (rest : Text) : ∀ c ∈ (x ++ rest).head?, isBlank c = false := by
  obtain ⟨hne, hchars⟩ := h
  cases x with
  | nil => exact absurd rfl hne
  | cons d x =>
    rintro c ⟨⟩
    exact (hchars d List.mem_cons_self).1

theorem IsSolid.trimBlanks_append {x w : Text} (h : IsSolid x) (hw : IsBlanks w) : trimBlanks (x ++ w) = x := by
  have htrim : trimBlanks ([] ++ (x ++ w)) = x := by
    refine Text.trimBlanks_append (List.forall_mem_nil _) (fun c hc => isBlank_iff.mpr (hw c hc)) h.1 ?_ ?_
    · intro c hc
      exact (h.2 c (List.mem_of_mem_head? hc)).1
    · intro c hc
      exact (h.2 c (List.mem_of_getLast? hc)).1
  exact htrim

theorem IsSolid.elements_eq {x : Text} (h : IsSolid x) : elements x = [x] := by
  have htrim := h.trimBlanks_append (List.forall_mem_nil _)
  rw [List.append_nil] at htrim
  rw [elements, List.splitOn_eq_singleton h.not_mem, List.map_singleton, htrim]

/-- The first element of a list is read without the blanks of the separator behind it. -/
theorem IsSolid.elements_append {x s : Text} (h : IsSolid x) (hs : IsSeparator ',' s) (l : Text) :
    elements (x ++ (s ++ l)) = x :: elements l := by
  obtain ⟨w, w', hw, hw', rfl⟩ := hs
  have hcomma : ',' ∉ x ++ w := by
    intro hmem
    rcases List.mem_append.mp hmem with hmem | hmem
    · exact h.not_mem hmem
    · exact absurd (hw ',' hmem) (by decide)
  have htext : x ++ (w ++ ',' :: w' ++ l) = x ++ w ++ ',' :: (w' ++ l) := by
    simp only [List.append_assoc, List.cons_append]
  rw [htext, elements_append_cons hcomma, h.trimBlanks_append hw, elements_append_of_isBlanks hw']

/-- **Reading the elements.** The elements of a list are the texts that stand for its items, if each can be told from
    the separators around it. -/
theorem forall₂_elements {α : Type} {R : Text → α → Prop} (hsolid : ∀ x a, R x a → IsSolid x) {l : Text}
    {items : List α} (h : Separated R l items) : List.Forall₂ R l.elements items := by
  induction h with
  | one hx =>
    rw [(hsolid _ _ hx).elements_eq]
    exact .cons hx .nil
  | cons hx hs _ ih =>
    rw [(hsolid _ _ hx).elements_append hs]
    exact .cons hx ih

/-- The elements of a list that stand for themselves are read as they are. -/
theorem elements_eq_of_separated {P : Text → Prop} (hsolid : ∀ x, P x → IsSolid x) {l : Text} {texts : List Text}
    (h : Separated (fun x text => x = text ∧ P x) l texts) : l.elements = texts := by
  have helements := forall₂_elements (fun x text hx => hsolid x hx.2) h
  exact List.forall₂_eq_eq_eq ▸ helements.imp fun _ _ hx => hx.1

end Text

/-- A token can be told from the separators around it. -/
theorem IsToken.isSolid {t : Text} (h : IsToken t) : t.IsSolid := by
  refine ⟨h.1, ?_⟩
  intro c hc
  refine ⟨(h.2 c hc).isBlank_eq_false, ?_⟩
  rintro rfl
  exact absurd (h.2 ',' hc) (by decide)

/-- Texts are read one by one if each of them is read as the item in its place. -/
theorem mapM_eq_some_iff {α : Type} {read? : Text → Option α} {xs : List Text} {items : List α} :
    xs.mapM read? = some items ↔ List.Forall₂ (fun x item => read? x = some item) xs items := by
  induction xs generalizing items with
  | nil =>
    rw [List.mapM_nil, List.forall₂_nil_left_iff]
    exact Option.some_inj.trans eq_comm
  | cons x xs ih =>
    rw [List.mapM_cons, List.forall₂_cons_left_iff]
    constructor
    · intro h
      obtain ⟨item, hitem, h⟩ := Option.bind_eq_some_iff.mp h
      obtain ⟨items', hitems, h⟩ := Option.bind_eq_some_iff.mp h
      cases h
      exact ⟨item, items', hitem, ih.mp hitems, rfl⟩
    · rintro ⟨item, items', hitem, hitems, rfl⟩
      rw [hitem, ih.mpr hitems]
      rfl

end HttpFields
