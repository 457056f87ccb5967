import HttpFields.Reader
import HttpFields.Proofs.Parameter

/-!
# `HttpFields.Proofs.Credentials` — how credentials are read

Credentials stated by what follows their scheme, with no order in which the forms are tried. The grammar tries
parameters before a `token68`, and reading cuts the parameters apart a second time; neither can go wrong, since a
`token68` never starts with a parameter (`parse?_parameterList_eq_none`) and the separators are where the grammar has
them (`readOn?_of_separated`).

* `IsCredentials` — credentials as they are written.
* `isCredentials_of_accepts`, `read_of_isCredentials` — what is accepted, and what it is read as.
* `parse?_authorization_iff` — credentials are read exactly where they stand, as what they are.
-/

namespace HttpFields

namespace Credentials

open Rule

/-! ## Credentials without a grammar -/

/-- Spaces, and no other blanks. -/
def IsSpaces (w : Text) : Prop := ∀ c ∈ w, c = ' '

/-- A character of a `token68`, its padding aside. -/
def IsToken68Char (c : Char) : Prop := c.isAlphanum = true ∨ c ∈ ['-', '.', '_', '~', '+', '/']

/-- A `token68`: a run of such characters and padding, either of which may be empty. -/
def IsToken68 (w : Text) : Prop :=
  ∃ run padding : Text, (∀ c ∈ run, IsToken68Char c) ∧ (∀ c ∈ padding, c = '=') ∧ w = run ++ padding

/-- The text stands for the credentials. -/
inductive IsCredentials : Text → Credentials → Prop where
  /-- A scheme and nothing but spaces. -/
  | bare {scheme spaces : Text} :
      IsToken scheme → IsSpaces spaces → IsCredentials (scheme ++ spaces) ⟨scheme, none⟩
  /-- A scheme and parameters. -/
  | parameters {scheme spaces list : Text} {given : List (Text × Text)} {p : Parameters} :
      IsToken scheme → IsSpaces spaces → spaces ≠ [] → Separated IsParameter list given → p.IsMapOf given →
      IsCredentials (scheme ++ (spaces ++ list)) ⟨scheme, some (.parameters p)⟩
  /-- A scheme and an opaque word. -/
  | token68 {scheme spaces word : Text} :
      IsToken scheme → IsSpaces spaces → spaces ≠ [] → IsToken68 word → word ≠ [] →
      IsCredentials (scheme ++ (spaces ++ word)) ⟨scheme, some (.token68 word)⟩

theorem contains_token68Char {c : Char} : CharClass.token68Char.contains c = true ↔ IsToken68Char c := by
  rw [CharClass.token68Char, CharClass.contains_append, CharClass.contains_append, CharClass.contains_alpha,
    CharClass.contains_digit, Bool.or_eq_true, CharClass.contains_ofText, IsToken68Char, Char.isAlphanum]

/-! ## The rules -/

theorem isParameter_of_derives {p : Text} (h : Derives parameter p) : ∃ entry, IsParameter p entry := by
  obtain ⟨name, _, rfl, hname, hs⟩ := derives_sequence_cons_iff.mp h
  obtain ⟨s, v, rfl, hs, hv⟩ := derives_sequence_cons_iff.mp hs
  obtain ⟨value, hvalue⟩ := isValue_of_derives (derives_sequence_singleton_iff.mp hv)
  exact ⟨(name, value), s, v, derives_token_iff.mp hname, isSeparator_of_derives hs, hvalue, rfl⟩

theorem takes_parameter {p : Text} {entry : Text × Text} {rest : Text} (h : IsParameter p entry)
    (hrest : ∀ c ∈ rest.head?, Text.isBlank c = true ∨ c = ',') : parameter.Takes p rest := by
  obtain ⟨s, v, hname, hs, hv, rfl⟩ := h
  refine .cons (takes_token hname ?_) (.cons (takes_separator rfl hs (hv.head rest)) (takes_wordValue hv ?_).singleton)
  · intro c hc
    rw [List.append_assoc] at hc
    exact not_isTokenChar_of_isBlank (by decide) (hs.head _ c hc)
  · intro c hc
    exact not_isTokenChar_of_isBlank (by decide) (hrest c hc)

theorem oneOf_token68Char : OneOf IsToken68Char CharClass.token68Char := (oneOf_class _).congr contains_token68Char

theorem isToken68_of_derives {w : Text} (h : Derives Rule.token68 w) : IsToken68 w := by
  obtain ⟨run, padding, rfl, hrun, hpadding⟩ := derives_sequence_cons_iff.mp h
  have hpadding := derives_sequence_singleton_iff.mp hpadding
  exact ⟨run, padding, oneOf_token68Char.derives_many_iff.mp hrun, (oneOf_terminal '=').derives_many_iff.mp hpadding,
    rfl⟩

theorem takes_token68 {w : Text} (h : IsToken68 w) : Rule.token68.Takes w [] := by
  obtain ⟨run, padding, hrun, hpadding, rfl⟩ := h
  have hend : ∀ c ∈ (padding ++ []).head?, ¬ IsToken68Char c := by
    intro c hc
    rw [List.append_nil] at hc
    rw [hpadding c (List.mem_of_mem_head? hc)]
    simp [IsToken68Char]
  have htail : (many '=').Takes padding [] := (oneOf_terminal '=').takes_many hpadding nofun
  exact .cons (oneOf_token68Char.takes_many hrun hend) htail.singleton

/-- Behind an equals sign a `token68` is padding. -/
theorem IsToken68.eq_of_mem {w before after : Text} (h : IsToken68 w) (hw : w = before ++ '=' :: after) :
    ∀ c ∈ after, c = '=' := by
  obtain ⟨run, padding, hrun, hpadding, rfl⟩ := h
  -- on the run, in which no equals sign stands: what is in front of it is used up first
  induction run generalizing before with
  | nil =>
    intro c hc
    apply hpadding c
    rw [← List.nil_append padding, hw]
    exact List.mem_append_right _ (List.mem_cons_of_mem _ hc)
  | cons d run ih =>
    cases before with
    | nil =>
      obtain rfl : d = '=' := (List.cons.inj hw).1
      exact absurd (hrun '=' List.mem_cons_self) (by simp [IsToken68Char])
    | cons b before =>
      exact ih (fun c hc => hrun c (List.mem_cons_of_mem _ hc)) (List.cons.inj hw).2

/-- **The parameters never lose a `token68`.** No parameter stands at the start of a `token68`, since its value would
    follow an equals sign. -/
theorem parse?_parameterList_eq_none {w : Text} (h : IsToken68 w) : parameterList.parse? w = none := by
  rw [parameterList, separated, parse?_sequence_cons]
  cases hm : parameter.parse? w with
  | none => rfl
  | some m =>
    obtain ⟨entry, _, v, -, ⟨b, b', -, hb', rfl⟩, hv, htaken⟩ := isParameter_of_derives (derives_of_parse? hm)
    have hw : w = entry.1 ++ b ++ '=' :: (b' ++ v ++ m.rest) := by
      rw [← taken_append_rest hm, htaken]
      simp only [List.append_assoc, List.cons_append]
    have hpadding := h.eq_of_mem hw
    -- the first character of the value would be padding
    have hv_eq : ∀ c ∈ v, c = '=' := fun c hc =>
      hpadding c (List.mem_append_left _ (List.mem_append_right _ hc))
    rcases hv with ⟨⟨hne, hchars⟩, -⟩ | ⟨inner, -, rfl⟩
    · obtain ⟨c, hc⟩ := List.exists_mem_of_ne_nil v hne
      exact absurd (hv_eq c hc ▸ hchars c hc) (by decide)
    · exact absurd (hv_eq '"' List.mem_cons_self) (by decide)

/-! ## Accepted texts -/

theorem derives_spaces_iff {w : Text} : Derives (many1 ' ') w ↔ w ≠ [] ∧ IsSpaces w :=
  (oneOf_terminal ' ').derives_many1_iff

/-- An accepted text stands for some credentials. -/
theorem isCredentials_of_accepts {v : Text} (h : grammar.accepts v = true) : ∃ c, IsCredentials v c := by
  obtain ⟨scheme, _, rfl, hscheme, hs⟩ := derives_sequence_cons_iff.mp (derives_of_accepts h)
  have hscheme := derives_token_iff.mp hscheme
  rcases derives_optional_iff.mp (derives_sequence_singleton_iff.mp hs) with rfl | hs
  · exact ⟨_, .bare hscheme (List.forall_mem_nil _)⟩
  · obtain ⟨spaces, w, rfl, hspaces, hw⟩ := derives_sequence_cons_iff.mp hs
    obtain ⟨hne, hspaces⟩ := derives_spaces_iff.mp hspaces
    rcases derives_choice_pair_iff.mp (derives_sequence_singleton_iff.mp hw) with hlist | hword
    · obtain ⟨given, hgiven⟩ := separated_of_derives (fun _ => isParameter_of_derives) hlist
      exact ⟨_, .parameters hscheme hspaces hne hgiven (Parameters.isMapOf_ofList given)⟩
    · -- an empty word is none: spaces may follow a scheme that stands alone
      by_cases hempty : w = []
      · rw [hempty, List.append_nil]
        exact ⟨_, .bare hscheme hspaces⟩
      · exact ⟨_, .token68 hscheme hspaces hne (isToken68_of_derives hword) hempty⟩

/-! ## Reading -/

theorem readParameter?_last {p : Text} {entry : Text × Text} (h : IsParameter p entry) :
    readParameter? p = some (entry, none) := by
  have htake : parameter.parse? p = some ⟨p, []⟩ := accepts_iff.mp (accepts_iff_takes.mpr (takes_parameter h nofun))
  rw [readParameter?, htake, Option.bind_eq_bind, Option.bind_some, Parameter.read?_of_isParameter h]
  rfl

theorem readParameter?_cons {p s l : Text} {entry : Text × Text} (h : IsParameter p entry) (hs : IsSeparator ',' s)
    (hl : ∀ c ∈ l.head?, Text.isBlank c = false) : readParameter? (p ++ (s ++ l)) = some (entry, some l) := by
  have htake : parameter.parse? (p ++ (s ++ l)) = some ⟨p, s ++ l⟩ := takes_parameter h (hs.head l)
  have hsep : (separator ',').parse? (s ++ l) = some ⟨s, l⟩ := takes_separator rfl hs hl
  have hne : s ++ l ≠ [] := List.append_ne_nil_of_left_ne_nil hs.ne_nil l
  rw [readParameter?, htake, Option.bind_eq_bind, Option.bind_some, Parameter.read?_of_isParameter h]
  show (if s ++ l = [] then _ else ((separator ',').parse? (s ++ l)).bind _) = _
  rw [if_neg hne, hsep]
  rfl

/-- **The walk.** The parameters are cut apart where the grammar separates them, whatever their values hold. -/
theorem readOn?_of_separated {l : Text} {given : List (Text × Text)} (h : Separated IsParameter l given) :
    l.readOn? readParameter? = some given := by
  induction h with
  | one hp => exact Text.readOn?_of_last (readParameter?_last hp)
  | @cons p s l entry given hp hs hl ih =>
    refine Text.readOn?_of_step (readParameter?_cons hp hs (hl.head fun _ _ rest hp => hp.head rest)) ?_ ih
    have hpos : 0 < s.length := List.length_pos_iff.mpr hs.ne_nil
    rw [List.length_append, List.length_append]
    omega

/-- A comma that no parameter follows is not passed over. -/
example : readParameters? "a=b, ".toList = none := by decide +kernel

theorem readAuthentication?_of_separated {l : Text} {given : List (Text × Text)} (h : Separated IsParameter l given)
    (hl : parameterList.Takes l []) : readAuthentication? l = some (.parameters (.ofList given)) := by
  rw [readAuthentication?, accepts_iff_takes.mpr hl, if_pos rfl, readParameters?, readOn?_of_separated h]
  rfl

theorem readAuthentication?_of_isToken68 {w : Text} (h : IsToken68 w) : readAuthentication? w = some (.token68 w) := by
  have haccepts : parameterList.accepts w = false := by
    rw [Bool.eq_false_iff, Ne, accepts_iff, parse?_parameterList_eq_none h]
    exact nofun
  rw [readAuthentication?, haccepts, if_neg Bool.false_ne_true]

/-- What follows the scheme, if the grammar takes all of it, is read without the spaces at its start. -/
theorem read_of_takes {scheme behind w : Text} (hscheme : token.Takes scheme behind)
    (hbehind : (optional (.sequence [many1 ' ', .choice [parameterList, Rule.token68]])).Takes behind [])
    (hw : behind.dropWhile (· = ' ') = w) :
    (read (scheme ++ behind)).value =
      if w = [] then some ⟨scheme, none⟩ else (readAuthentication? w).map fun a => ⟨scheme, some a⟩ := by
  have hgrammar : grammar.Takes (scheme ++ behind) [] := by
    refine .cons ?_ hbehind.singleton
    rw [List.append_nil]
    exact hscheme
  rw [read, accepts_iff_takes.mpr hgrammar, Reading.require_true, Reading.accept_bind, hscheme, Reading.lift_some,
    Reading.accept_bind]
  simp only [hw]
  cases w with
  | nil => rfl
  | cons c w =>
    show (Reading.lift (readAuthentication? (c :: w)) >>= fun a => pure (⟨scheme, some a⟩ : Credentials)).value = _
    rw [if_neg (List.cons_ne_nil c w)]
    cases readAuthentication? (c :: w) <;> rfl

/-- Behind a scheme and spaces the grammar takes what the parameters or the `token68` take. -/
theorem read_of_spaces {scheme spaces w : Text} (hscheme : IsToken scheme) (hspaces : IsSpaces spaces)
    (hne : spaces ≠ []) (hhead : ∀ c ∈ w.head?, c ≠ ' ') (hw : (choice [parameterList, Rule.token68]).Takes w []) :
    (read (scheme ++ (spaces ++ w))).value =
      if w = [] then some ⟨scheme, none⟩ else (readAuthentication? w).map fun a => ⟨scheme, some a⟩ := by
  refine read_of_takes ?_ ?_ ?_
  · apply takes_token hscheme
    intro c hc
    rw [List.head?_append, List.head?_eq_some_head hne, Option.some_or] at hc
    rw [hspaces c (List.mem_of_mem_head? (List.head?_eq_some_head hne ▸ hc))]
    decide
  · refine Takes.optional (.cons ((oneOf_terminal ' ').takes_many1 hne hspaces ?_) hw.singleton)
    rw [List.append_nil]
    exact hhead
  · rw [List.dropWhile_append_of_pos fun c hc => decide_eq_true (hspaces c hc)]
    cases w with
    | nil => rfl
    | cons c w => exact List.dropWhile_cons_of_neg (by simpa using hhead c rfl)

theorem ne_space_of_isBlank_eq_false {c : Char} (h : Text.isBlank c = false) : c ≠ ' ' := by
  rintro rfl
  cases h

/-- A `token68` starts with no space. -/
theorem IsToken68.head {w : Text} (h : IsToken68 w) : ∀ c ∈ w.head?, c ≠ ' ' := by
  rintro c hc rfl
  obtain ⟨run, padding, hrun, hpadding, rfl⟩ := h
  rcases List.mem_append.mp (List.mem_of_mem_head? hc) with h | h
  · exact absurd (hrun ' ' h) (by simp [IsToken68Char])
  · exact absurd (hpadding ' ' h) (by decide)

/-- **What is read.** A text that stands for credentials is read as these. -/
theorem read_of_isCredentials {v : Text} {c : Credentials} (h : IsCredentials v c) : (read v).value = some c := by
  cases h with
  | @bare scheme spaces hscheme hspaces =>
    have hempty : IsToken68 [] :=
      ⟨[], [], List.forall_mem_nil _, List.forall_mem_nil _, rfl⟩
    -- spaces behind the scheme are taken together with an empty word
    by_cases hne : spaces = []
    · subst hne
      have htoken : token.Takes scheme [] := takes_token hscheme nofun
      exact read_of_takes htoken (Takes.optional_nil rfl) rfl
    · have hhead : ∀ c ∈ ([] : Text).head?, c ≠ ' ' := nofun
      rw [← List.append_nil spaces]
      exact read_of_spaces hscheme hspaces hne hhead (.tail rfl (.head (takes_token68 hempty)))
  | @parameters scheme spaces list given p hscheme hspaces hne hlist hp =>
    have hhead : ∀ c ∈ list.head?, Text.isBlank c = false := hlist.head fun _ _ rest hp => hp.head rest
    have htakes : parameterList.Takes list [] :=
      takes_separated (fun _ _ rest hp => hp.head rest) (fun _ _ _ => takes_parameter) hlist
    have hempty : list ≠ [] := by
      rintro rfl
      have hnone : parameterList.parse? ([] ++ []) = none := rfl
      rw [Takes, hnone] at htakes
      cases htakes
    rw [read_of_spaces hscheme hspaces hne (fun c hc => ne_space_of_isBlank_eq_false (hhead c hc)) (.head htakes),
      if_neg hempty, readAuthentication?_of_separated hlist htakes, Parameters.isMapOf_iff.mp hp]
    rfl
  | @token68 scheme spaces word hscheme hspaces hne hword hempty =>
    have hnone : parameterList.parse? (word ++ []) = none := by
      rw [List.append_nil]
      exact parse?_parameterList_eq_none hword
    rw [read_of_spaces hscheme hspaces hne hword.head (.tail hnone (.head (takes_token68 hword))), if_neg hempty,
      readAuthentication?_of_isToken68 hword]
    rfl

/-- Credentials are accepted without an event. -/
theorem read_eq_accept {v : Text} {c : Credentials} (h : IsCredentials v c) : read v = .accept c := by
  apply Reading.require_bind_eq_accept _ (read_of_isCredentials h)
  apply (Reading.isQuiet_lift _).bind
  intro scheme
  split
  · exact Reading.isQuiet_accept _
  · exact (Reading.isQuiet_lift _).bind fun _ => Reading.isQuiet_accept _

end Credentials

/-- **Credentials.** A text is read as credentials exactly when it stands for them: a scheme alone, or with parameters
    or an opaque word behind it. No text stands for two. -/
theorem parse?_authorization_iff (v : Text) :
    (∀ c, Field.authorization.parse? v = some c ↔ Credentials.IsCredentials v c) ∧
      ∀ c c', Credentials.IsCredentials v c → Credentials.IsCredentials v c' → c = c' := by
  have hread : ∀ c, Credentials.IsCredentials v c → Field.authorization.parse? v = some c := fun _ =>
    Credentials.read_of_isCredentials
  constructor
  · intro c
    refine ⟨fun hparse => ?_, hread c⟩
    obtain ⟨haccepts, -⟩ := Reading.value_require_bind_eq_some_iff.mp hparse
    obtain ⟨c', hc'⟩ := Credentials.isCredentials_of_accepts haccepts
    rw [← Option.some.inj (hparse.symm.trans (hread c' hc'))] at hc'
    exact hc'
  · intro c c' hc hc'
    exact Option.some.inj ((hread c hc).symm.trans (hread c' hc'))

/-- A word that starts like a parameter, its padding in the place of the equals sign. -/
example :
    Field.authorization.parse? "Basic YWJj==".toList = some ⟨"Basic".toList, some (.token68 "YWJj==".toList)⟩ := by
  decide +kernel

end HttpFields
