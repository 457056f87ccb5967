import HttpFields.Reader
import HttpFields.Proofs.Decimal
import HttpFields.Proofs.Elements

/-!
# `HttpFields.Proofs.Ranges` — how ranges are read

Ranges stated without a grammar. The three kinds of a range share their characters, and the grammar tries the narrow
kinds first although each text of theirs may go on as a text of the wide kind. That does no harm: whichever kind matched,
the rest of the range is taken behind it, so what is taken is the longest run of range characters
(`RangeSpec.takes_grammar`), and only when the list has been cut is it decided of which kind each range is.

* `RangeSpec.IsText`, `RangeSpec.Means` — the texts of one range, and what they mean.
* `RangeSpec.ofText?_eq_some_iff`, `RangeSpec.exists_means_iff` — a range is read as what it means, if its numbers fit.
* `IsList`, `accepts_grammar_iff`, `read_of_isList` — a unit and the texts of its ranges.
* `IsRanges`, `read_eq_some_iff`, `parse?_range_iff` — a unit and its ranges.
-/

namespace HttpFields

open Rule
open Decimal (IsNumeral)

namespace RangeSpec

/-! ## One range without a grammar -/

/-- A character of a range: visible, and no comma. -/
def IsSpecChar (c : Char) : Prop := ('!' ≤ c ∧ c ≤ '+') ∨ ('-' ≤ c ∧ c ≤ '~')

/-- The text of a range of any kind. -/
def IsText (s : Text) : Prop := s ≠ [] ∧ ∀ c ∈ s, IsSpecChar c

/-- Digits, a dash, and possibly more digits. -/
def IsPositions (s : Text) : Prop :=
  ∃ first last : Text, first ≠ [] ∧ (∀ c ∈ first, c.isDigit = true) ∧ (∀ c ∈ last, c.isDigit = true) ∧
    s = first ++ '-' :: last

/-- A dash and digits. -/
def IsSuffixLength (s : Text) : Prop :=
  ∃ length : Text, length ≠ [] ∧ (∀ c ∈ length, c.isDigit = true) ∧ s = '-' :: length

/-- What the text of a range means. A number has to be that of a 64-bit word. -/
inductive Means : Text → RangeSpec → Prop where
  | between {first last : Text} {n m : UInt64} : first ≠ [] → (∀ c ∈ first, c.isDigit = true) →
      last ≠ [] → (∀ c ∈ last, c.isDigit = true) → Decimal.value first = n.toNat → Decimal.value last = m.toNat →
      Means (first ++ '-' :: last) (.between n (some m))
  | onward {first : Text} {n : UInt64} : first ≠ [] → (∀ c ∈ first, c.isDigit = true) →
      Decimal.value first = n.toNat → Means (first ++ ['-']) (.between n none)
  | suffix {length : Text} {n : UInt64} : length ≠ [] → (∀ c ∈ length, c.isDigit = true) →
      Decimal.value length = n.toNat → Means ('-' :: length) (.suffix n)
  | other {s : Text} : ¬ IsPositions s → ¬ IsSuffixLength s → Means s (.other s)

/-- The text is that of a range, and means it. -/
def StandsFor (s : Text) (spec : RangeSpec) : Prop := IsText s ∧ Means s spec

/-! ### Characters -/

theorem contains_specChar {c : Char} : specChar.contains c = true ↔ IsSpecChar c := by
  rw [specChar, CharClass.contains_append, Bool.or_eq_true, CharClass.contains_span, CharClass.contains_span, IsSpecChar]

instance (c : Char) : Decidable (IsSpecChar c) := decidable_of_iff _ contains_specChar

theorem oneOf_specChar : OneOf IsSpecChar specChar := (oneOf_class _).congr contains_specChar

theorem isSpecChar_of_isDigit {c : Char} (h : c.isDigit = true) : IsSpecChar c := by
  rw [← CharClass.contains_digit] at h
  exact Or.inr (CharClass.between_of_contains (by decide) h)

/-- What separates ranges is no part of them. -/
theorem not_isSpecChar_of_isBlank {c : Char} (h : Text.isBlank c = true ∨ c = ',') : ¬ IsSpecChar c := by
  rw [isBlank_iff] at h
  rcases h with (rfl | rfl) | rfl
  all_goals decide

theorem not_mem_of_isDigit {s : Text} (h : ∀ c ∈ s, c.isDigit = true) : '-' ∉ s := by
  intro hmem
  exact absurd (h '-' hmem) (by decide)

theorem IsText.isSolid {s : Text} (h : IsText s) : s.IsSolid := by
  refine ⟨h.1, ?_⟩
  intro c hc
  constructor
  · rw [Bool.eq_false_iff]
    exact fun hblank => not_isSpecChar_of_isBlank (Or.inl hblank) (h.2 c hc)
  · exact fun hcomma => not_isSpecChar_of_isBlank (Or.inr hcomma) (h.2 c hc)

theorem IsPositions.isText {s : Text} (h : IsPositions s) : IsText s := by
  obtain ⟨first, last, hne, hfirst, hlast, rfl⟩ := h
  refine ⟨List.append_ne_nil_of_left_ne_nil hne _, List.forall_mem_append.mpr ⟨?_, List.forall_mem_cons.mpr ⟨?_, ?_⟩⟩⟩
  · exact fun c hc => isSpecChar_of_isDigit (hfirst c hc)
  · decide
  · exact fun c hc => isSpecChar_of_isDigit (hlast c hc)

theorem IsSuffixLength.isText {s : Text} (h : IsSuffixLength s) : IsText s := by
  obtain ⟨length, -, hlength, rfl⟩ := h
  refine ⟨List.cons_ne_nil _ _, List.forall_mem_cons.mpr ⟨by decide, ?_⟩⟩
  exact fun c hc => isSpecChar_of_isDigit (hlength c hc)

/-! ## The rules -/

theorem isPositions_of_derives {s : Text} (h : Derives positions s) : IsPositions s := by
  obtain ⟨first, last, rfl, hfirst, hlast⟩ := derives_delimited_iff.mp h
  obtain ⟨hne, hfirst⟩ := oneOf_digit.derives_many1_iff.mp hfirst
  exact ⟨first, last, hne, hfirst, oneOf_digit.derives_many_iff.mp (derives_sequence_singleton_iff.mp hlast), rfl⟩

theorem isSuffixLength_of_derives {s : Text} (h : Derives suffixLength s) : IsSuffixLength s := by
  obtain ⟨length, rfl, hlength⟩ := derives_terminal_cons_iff.mp h
  obtain ⟨hne, hlength⟩ := oneOf_digit.derives_many1_iff.mp (derives_sequence_singleton_iff.mp hlength)
  exact ⟨length, hne, hlength, rfl⟩

theorem accepts_positions_iff {s : Text} : positions.accepts s = true ↔ IsPositions s := by
  constructor
  · intro h
    exact isPositions_of_derives (derives_of_accepts h)
  · rintro ⟨first, last, hne, hfirst, hlast, rfl⟩
    have hnil : ∀ c ∈ ([] : Text).head?, ¬ c.isDigit = true := fun _ hc => nomatch hc
    have hdash : ∀ c ∈ ('-' :: (last ++ [])).head?, ¬ c.isDigit = true := forall_head?_cons.mpr (by decide)
    refine accepts_iff_takes.mpr (.cons (y := '-' :: last) (oneOf_digit.takes_many1 hne hfirst hdash) ?_)
    exact .cons (.terminal '-' _) (oneOf_digit.takes_many hlast hnil).singleton

theorem accepts_suffixLength_iff {s : Text} : suffixLength.accepts s = true ↔ IsSuffixLength s := by
  constructor
  · intro h
    exact isSuffixLength_of_derives (derives_of_accepts h)
  · rintro ⟨length, hne, hlength, rfl⟩
    have hnil : ∀ c ∈ ([] : Text).head?, ¬ c.isDigit = true := fun _ hc => nomatch hc
    exact accepts_iff_takes.mpr (.cons (.terminal '-' _) (oneOf_digit.takes_many1 hne hlength hnil).singleton)

/-- The kinds of a range, in the order in which they are tried. -/
theorem isText_of_derives_kinds {s : Text}
    (h : Derives (.choice [positions, suffixLength, many1 specChar]) s) : IsText s := by
  obtain ⟨r, hr, h⟩ := derives_choice_iff.mp h
  simp only [List.mem_cons, List.not_mem_nil, or_false] at hr
  rcases hr with rfl | rfl | rfl
  · exact (isPositions_of_derives h).isText
  · exact (isSuffixLength_of_derives h).isText
  · exact oneOf_specChar.derives_many1_iff.mp h

theorem isText_of_derives {s : Text} (h : Derives grammar s) : IsText s := by
  obtain ⟨kind, more, rfl, hkind, hmore⟩ := derives_sequence_cons_iff.mp h
  obtain ⟨hne, hkind⟩ := isText_of_derives_kinds hkind
  have hmore := oneOf_specChar.derives_many_iff.mp (derives_sequence_singleton_iff.mp hmore)
  exact ⟨List.append_ne_nil_of_left_ne_nil hne more, List.forall_mem_append.mpr ⟨hkind, hmore⟩⟩

/-- Range characters at the start of a range and what follows it do not go past the range. -/
theorem exists_append_of_forall {x y s rest : Text} (heq : x ++ y = s ++ rest) (hx : ∀ c ∈ x, IsSpecChar c)
    (hrest : ∀ c ∈ rest.head?, ¬ IsSpecChar c) : ∃ more, s = x ++ more ∧ y = more ++ rest := by
  rcases List.append_eq_append_iff.mp heq with ⟨more, hs, hy⟩ | ⟨past, rfl, rfl⟩
  · exact ⟨more, hs, hy⟩
  · cases past with
    | nil => exact ⟨[], by simp, rfl⟩
    | cons c past => exact absurd (hx c (List.mem_append_right s List.mem_cons_self)) (hrest c rfl)

/-- **A range is taken whole**, whatever kind its start is of. -/
theorem takes_grammar {s rest : Text} (h : IsText s) (hrest : ∀ c ∈ rest.head?, Text.isBlank c = true ∨ c = ',') :
    grammar.Takes s rest := by
  have hend : ∀ c ∈ rest.head?, ¬ IsSpecChar c := fun c hc => not_isSpecChar_of_isBlank (hrest c hc)
  -- one of the kinds matches, if only the last
  have hsome : ((Rule.choice [positions, suffixLength, many1 specChar]).parse? (s ++ rest)).isSome = true := by
    have hwide : (many1 specChar).parse? (s ++ rest) = some ⟨s, rest⟩ := oneOf_specChar.takes_many1 h.1 h.2 hend
    rw [parse?_choice_cons, parse?_choice_cons, parse?_choice_cons, hwide, Option.some_or, Option.isSome_or,
      Option.isSome_or, Option.isSome_some, Bool.or_true, Bool.or_true]
  obtain ⟨m, hm⟩ := Option.isSome_iff_exists.mp hsome
  obtain ⟨-, hkind⟩ := isText_of_derives_kinds (derives_of_parse? hm)
  -- it does not go past the range, and the rest of the range follows
  obtain ⟨more, hs, hmore⟩ := exists_append_of_forall (taken_append_rest hm) hkind hend
  rw [hs] at h ⊢
  have hkinds := takes_of_parse? hm
  rw [hmore] at hkinds
  refine .cons hkinds (oneOf_specChar.takes_many ?_ hend).singleton
  exact fun c hc => h.2 c (List.mem_append_right _ hc)

/-! ## Reading one range -/

theorem ofText?_positions {first last : Text} (hne : first ≠ []) (hfirst : ∀ c ∈ first, c.isDigit = true)
    (hlast : ∀ c ∈ last, c.isDigit = true) :
    ofText? (first ++ '-' :: last) = (Decimal.toUInt64? first).bind fun n =>
      if last = [] then some (.between n none) else (Decimal.toUInt64? last).map fun m => .between n (some m) := by
  have hpositions : positions.accepts (first ++ '-' :: last) = true :=
    accepts_positions_iff.mpr ⟨first, last, hne, hfirst, hlast, rfl⟩
  have hcut : (first ++ '-' :: last).cutAt? '-' = some (first, last) :=
    Text.cutAt?_eq_some_iff.mpr ⟨rfl, not_mem_of_isDigit hfirst⟩
  rw [ofText?, if_pos hpositions, hcut]
  simp only [Option.map_eq_bind]
  rfl

theorem not_isPositions_cons_dash (s : Text) : ¬ IsPositions ('-' :: s) := by
  rintro ⟨first, last, hne, hfirst, -, h⟩
  cases first with
  | nil => exact hne rfl
  | cons c first =>
    obtain rfl : '-' = c := (List.cons.inj h).1
    exact absurd (hfirst '-' List.mem_cons_self) (by decide)

theorem ofText?_suffixLength {length : Text} (hne : length ≠ []) (hlength : ∀ c ∈ length, c.isDigit = true) :
    ofText? ('-' :: length) = (Decimal.toUInt64? length).map suffix := by
  have hpositions : ¬ positions.accepts ('-' :: length) = true :=
    fun h => not_isPositions_cons_dash length (accepts_positions_iff.mp h)
  have hsuffix : suffixLength.accepts ('-' :: length) = true :=
    accepts_suffixLength_iff.mpr ⟨length, hne, hlength, rfl⟩
  rw [ofText?, if_neg hpositions, if_pos hsuffix]
  rfl

theorem ofText?_other {s : Text} (hpositions : ¬ IsPositions s) (hsuffix : ¬ IsSuffixLength s) :
    ofText? s = some (other s) := by
  rw [ofText?, if_neg (mt accepts_positions_iff.mp hpositions), if_neg (mt accepts_suffixLength_iff.mp hsuffix)]

theorem means_of_ofText? {s : Text} {spec : RangeSpec} (h : ofText? s = some spec) : Means s spec := by
  by_cases hpositions : IsPositions s
  · obtain ⟨first, last, hne, hfirst, hlast, rfl⟩ := hpositions
    rw [ofText?_positions hne hfirst hlast] at h
    obtain ⟨n, hn, h⟩ := Option.bind_eq_some_iff.mp h
    have hn : Decimal.value first = n.toNat := (IsNumeral.toUInt64?_eq_some_iff ⟨hne, hfirst⟩).mp hn
    by_cases hnil : last = []
    · subst hnil
      cases h
      exact .onward hne hfirst hn
    · rw [if_neg hnil] at h
      obtain ⟨m, hm, rfl⟩ := Option.map_eq_some_iff.mp h
      exact .between hne hfirst hnil hlast hn ((IsNumeral.toUInt64?_eq_some_iff ⟨hnil, hlast⟩).mp hm)
  by_cases hsuffix : IsSuffixLength s
  · obtain ⟨length, hne, hlength, rfl⟩ := hsuffix
    rw [ofText?_suffixLength hne hlength] at h
    obtain ⟨n, hn, rfl⟩ := Option.map_eq_some_iff.mp h
    exact .suffix hne hlength ((IsNumeral.toUInt64?_eq_some_iff ⟨hne, hlength⟩).mp hn)
  · rw [ofText?_other hpositions hsuffix] at h
    cases h
    exact .other hpositions hsuffix

theorem Means.ofText?_eq {s : Text} {spec : RangeSpec} (h : Means s spec) : ofText? s = some spec := by
  cases h with
  | between hne hfirst hnil hlast hn hm =>
    rw [ofText?_positions hne hfirst hlast, (IsNumeral.toUInt64?_eq_some_iff ⟨hne, hfirst⟩).mpr hn, Option.bind_some,
      if_neg hnil, (IsNumeral.toUInt64?_eq_some_iff ⟨hnil, hlast⟩).mpr hm, Option.map_some]
  | onward hne hfirst hn =>
    rw [ofText?_positions hne hfirst (List.forall_mem_nil _), (IsNumeral.toUInt64?_eq_some_iff ⟨hne, hfirst⟩).mpr hn,
      Option.bind_some, if_pos rfl]
  | suffix hne hlength hn =>
    rw [ofText?_suffixLength hne hlength, (IsNumeral.toUInt64?_eq_some_iff ⟨hne, hlength⟩).mpr hn, Option.map_some]
  | other hpositions hsuffix => exact ofText?_other hpositions hsuffix

/-- **What a range means.** A range is read as what it means, and as nothing if a number needs more than 64 bits. -/
theorem ofText?_eq_some_iff {s : Text} {spec : RangeSpec} : ofText? s = some spec ↔ Means s spec :=
  ⟨means_of_ofText?, Means.ofText?_eq⟩

/-- The numbers in the text of a range fit 64 bits, if it is positions or a length. -/
def Fits (s : Text) : Prop :=
  (∀ first last : Text, first ≠ [] → (∀ c ∈ first, c.isDigit = true) → (∀ c ∈ last, c.isDigit = true) →
    s = first ++ '-' :: last → Decimal.value first < 2 ^ 64 ∧ Decimal.value last < 2 ^ 64) ∧
  ∀ length : Text, length ≠ [] → (∀ c ∈ length, c.isDigit = true) → s = '-' :: length → Decimal.value length < 2 ^ 64

theorem Means.fits {s : Text} {spec : RangeSpec} (h : Means s spec) : Fits s := by
  have hread := h.ofText?_eq
  constructor
  · rintro first last hne hfirst hlast rfl
    rw [ofText?_positions hne hfirst hlast] at hread
    obtain ⟨n, hn, hread⟩ := Option.bind_eq_some_iff.mp hread
    refine ⟨(IsNumeral.exists_toUInt64?_iff ⟨hne, hfirst⟩).mp ⟨n, hn⟩, ?_⟩
    by_cases hnil : last = []
    · rw [hnil]
      decide
    · rw [if_neg hnil] at hread
      obtain ⟨m, hm, -⟩ := Option.map_eq_some_iff.mp hread
      exact (IsNumeral.exists_toUInt64?_iff ⟨hnil, hlast⟩).mp ⟨m, hm⟩
  · rintro length hne hlength rfl
    rw [ofText?_suffixLength hne hlength] at hread
    obtain ⟨n, hn, -⟩ := Option.map_eq_some_iff.mp hread
    exact (IsNumeral.exists_toUInt64?_iff ⟨hne, hlength⟩).mp ⟨n, hn⟩

theorem exists_means_of_fits {s : Text} (h : Fits s) : ∃ spec, Means s spec := by
  obtain ⟨hpositionsFit, hsuffixFits⟩ := h
  by_cases hpositions : IsPositions s
  · obtain ⟨first, last, hne, hfirst, hlast, rfl⟩ := hpositions
    obtain ⟨hn, hm⟩ := hpositionsFit first last hne hfirst hlast rfl
    have hnumeral : IsNumeral first := ⟨hne, hfirst⟩
    obtain ⟨n, hn⟩ := hnumeral.exists_toUInt64?_iff.mpr hn
    have hn := hnumeral.toUInt64?_eq_some_iff.mp hn
    by_cases hnil : last = []
    · subst hnil
      exact ⟨_, .onward hne hfirst hn⟩
    · have hnumeral' : IsNumeral last := ⟨hnil, hlast⟩
      obtain ⟨m, hm⟩ := hnumeral'.exists_toUInt64?_iff.mpr hm
      exact ⟨_, .between hne hfirst hnil hlast hn (hnumeral'.toUInt64?_eq_some_iff.mp hm)⟩
  by_cases hsuffix : IsSuffixLength s
  · obtain ⟨length, hne, hlength, rfl⟩ := hsuffix
    have hnumeral : IsNumeral length := ⟨hne, hlength⟩
    obtain ⟨n, hn⟩ := hnumeral.exists_toUInt64?_iff.mpr (hsuffixFits length hne hlength rfl)
    exact ⟨_, .suffix hne hlength (hnumeral.toUInt64?_eq_some_iff.mp hn)⟩
  · exact ⟨_, .other hpositions hsuffix⟩

/-- **Which ranges mean something.** A range means something unless it has a number that needs more than 64 bits. -/
theorem exists_means_iff {s : Text} : (∃ spec, Means s spec) ↔ Fits s := by
  constructor
  · rintro ⟨spec, h⟩
    exact h.fits
  · exact exists_means_of_fits

/-- Each range of a list means something exactly if all of them fit. -/
theorem exists_forall₂_means_iff {texts : List Text} :
    (∃ specs, List.Forall₂ Means texts specs) ↔ ∀ s ∈ texts, Fits s := by
  induction texts with
  | nil => exact ⟨fun _ => List.forall_mem_nil _, fun _ => ⟨[], .nil⟩⟩
  | cons s texts ih =>
    rw [List.forall_mem_cons, ← ih, ← exists_means_iff]
    constructor
    · rintro ⟨_, h⟩
      cases h with
      | cons hspec hspecs => exact ⟨⟨_, hspec⟩, ⟨_, hspecs⟩⟩
    · rintro ⟨⟨spec, hspec⟩, ⟨specs, hspecs⟩⟩
      exact ⟨spec :: specs, .cons hspec hspecs⟩

end RangeSpec

/-! ## A unit and its ranges -/

namespace Ranges

open RangeSpec

/-- The text stands for the ranges: their unit, an equals sign, and texts that stand for them, in their order, with commas
    between them. -/
def IsRanges (v : Text) (r : Ranges) : Prop :=
  ∃ list, IsToken r.unit ∧ Separated StandsFor list r.specs ∧ v = r.unit ++ '=' :: list

/-- The first equals sign of a value is the one behind the unit. -/
theorem cutAt?_unit {unit : Text} (h : IsToken unit) (list : Text) :
    (unit ++ '=' :: list).cutAt? '=' = some (unit, list) := by
  apply Text.cutAt?_eq_some_iff.mpr
  refine ⟨rfl, ?_⟩
  intro hmem
  exact absurd (h.2 '=' hmem) (by decide)

/-- The text is a unit, an equals sign, and the texts of ranges with commas between them, whatever the ranges mean. -/
def IsList (v unit : Text) (texts : List Text) : Prop :=
  ∃ list, IsToken unit ∧ Separated (fun x text => x = text ∧ IsText x) list texts ∧ v = unit ++ '=' :: list

theorem isRanges_iff {v : Text} {r : Ranges} :
    IsRanges v r ↔ ∃ texts, IsList v r.unit texts ∧ List.Forall₂ Means texts r.specs := by
  constructor
  · rintro ⟨list, hunit, hlist, hv⟩
    obtain ⟨texts, htexts, hspecs⟩ := separated_iff_texts.mp hlist
    exact ⟨texts, ⟨list, hunit, htexts, hv⟩, hspecs⟩
  · rintro ⟨texts, ⟨list, hunit, htexts, hv⟩, hspecs⟩
    exact ⟨list, hunit, separated_iff_texts.mpr ⟨texts, htexts, hspecs⟩, hv⟩

/-- **What is accepted.** The grammar accepts a unit and the texts of ranges. -/
theorem accepts_grammar_iff {v : Text} : grammar.accepts v = true ↔ ∃ unit texts, IsList v unit texts := by
  constructor
  · intro h
    obtain ⟨unit, list, rfl, hunit, hlist⟩ := derives_delimited_iff.mp (derives_of_accepts h)
    have helement : ∀ x, Derives RangeSpec.grammar x → ∃ text, x = text ∧ IsText x :=
      fun x hx => ⟨x, rfl, isText_of_derives hx⟩
    obtain ⟨texts, htexts⟩ := separated_of_derives helement (derives_sequence_singleton_iff.mp hlist)
    exact ⟨unit, texts, list, derives_token_iff.mp hunit, htexts, rfl⟩
  · rintro ⟨unit, texts, list, hunit, hlist, rfl⟩
    have htakes : (separated RangeSpec.grammar).Takes list [] := by
      apply takes_separated _ _ hlist
      · intro x text rest hx
        exact hx.2.isSolid.head rest
      · intro x text rest hx hrest
        exact takes_grammar hx.2 hrest
    refine accepts_iff_takes.mpr (.cons (y := '=' :: list) (takes_token_cons hunit ?_ _) ?_)
    · decide
    · exact .cons (.terminal '=' _) htakes.singleton

/-- The texts of a list are its elements. -/
theorem elements_eq {list : Text} {texts : List Text} (h : Separated (fun x text => x = text ∧ IsText x) list texts) :
    list.elements = texts :=
  Text.elements_eq_of_separated (fun _ hx => hx.isSolid) h

/-- A text is one unit and one list of texts at most. -/
theorem IsList.unique {v unit unit' : Text} {texts texts' : List Text} (h : IsList v unit texts)
    (h' : IsList v unit' texts') : unit = unit' ∧ texts = texts' := by
  obtain ⟨list, hunit, hlist, rfl⟩ := h
  obtain ⟨list', hunit', hlist', hv⟩ := h'
  have hcut := cutAt?_unit hunit list
  rw [hv, cutAt?_unit hunit' list', Option.some.injEq, Prod.mk.injEq] at hcut
  obtain ⟨rfl, rfl⟩ := hcut
  exact ⟨rfl, (elements_eq hlist).symm.trans (elements_eq hlist')⟩

/-- **How a list is read.** The texts of a list are read one by one. -/
theorem read_of_isList {v unit : Text} {texts : List Text} (h : IsList v unit texts) :
    read v = do
      let specs ← .expect (texts.mapM ofText?) (.positionOutOfRange v)
      return ⟨unit, specs⟩ := by
  have haccepts : grammar.accepts v = true := accepts_grammar_iff.mpr ⟨unit, texts, h⟩
  obtain ⟨list, hunit, hlist, rfl⟩ := h
  rw [read, haccepts, Reading.require_true, Reading.accept_bind, cutAt?_unit hunit, Reading.lift_some,
    Reading.accept_bind, ← elements_eq hlist]

/-- A list of ranges that is accepted is read, unless a number of it is out of range. -/
theorem isClear_read {v : Text} (h : grammar.accepts v = true) : (read v).IsClear (.positionOutOfRange v) := by
  obtain ⟨unit, texts, hlist⟩ := accepts_grammar_iff.mp h
  rw [read_of_isList hlist]
  exact (Reading.isClear_expect _ _).bind fun specs => Reading.isClear_accept _ _

/-- **What is read.** A text is read as the ranges that it stands for. -/
theorem read_eq_some_iff {v : Text} {r : Ranges} : (read v).value = some r ↔ IsRanges v r := by
  rw [isRanges_iff]
  constructor
  · intro h
    obtain ⟨haccepts, -⟩ := Reading.value_require_bind_eq_some_iff.mp h
    obtain ⟨unit, texts, hlist⟩ := accepts_grammar_iff.mp haccepts
    rw [read_of_isList hlist] at h
    obtain ⟨specs, hspecs, h⟩ := Reading.value_bind_eq_some_iff.mp h
    cases h
    rw [Reading.value_expect, mapM_eq_some_iff] at hspecs
    exact ⟨texts, hlist, hspecs.imp fun _ _ => ofText?_eq_some_iff.mp⟩
  · rintro ⟨texts, hlist, hspecs⟩
    rw [read_of_isList hlist, Reading.value_bind_eq_some_iff]
    refine ⟨r.specs, ?_, rfl⟩
    rw [Reading.value_expect, mapM_eq_some_iff]
    exact hspecs.imp fun _ _ => ofText?_eq_some_iff.mpr

end Ranges

open RangeSpec Ranges

/-- **Ranges.** A text is read as ranges exactly when it is their unit, an equals sign and texts that mean them, in their
    order and with commas between them. So what is read are the texts of ranges whose numbers all fit 64 bits, and a
    single number that does not fit refuses them all. -/
theorem parse?_range_iff (v : Text) :
    (∀ r, Field.range.parse? v = some r ↔ ∃ texts, IsList v r.unit texts ∧ List.Forall₂ Means texts r.specs) ∧
      ((∃ r, Field.range.parse? v = some r) ↔ ∃ unit texts, IsList v unit texts ∧ ∀ s ∈ texts, Fits s) ∧
      ∀ unit texts, IsList v unit texts → (∃ s ∈ texts, ¬ Fits s) → Field.range.parse? v = none := by
  have hread : ∀ r, Field.range.parse? v = some r ↔ ∃ texts, IsList v r.unit texts ∧ List.Forall₂ Means texts r.specs :=
    fun r => read_eq_some_iff.trans isRanges_iff
  have hsome : (∃ r, Field.range.parse? v = some r) ↔ ∃ unit texts, IsList v unit texts ∧ ∀ s ∈ texts, Fits s := by
    simp only [hread, ← exists_forall₂_means_iff]
    constructor
    · rintro ⟨r, texts, hlist, hspecs⟩
      exact ⟨r.unit, texts, hlist, r.specs, hspecs⟩
    · rintro ⟨unit, texts, hlist, specs, hspecs⟩
      exact ⟨⟨unit, specs⟩, texts, hlist, hspecs⟩
  refine ⟨hread, hsome, ?_⟩
  rintro unit texts hlist ⟨s, hs, hfits⟩
  rw [Option.eq_none_iff_forall_ne_some]
  intro r hr
  -- a list that is read is the same list
  obtain ⟨unit', texts', hlist', hall⟩ := hsome.mp ⟨r, hr⟩
  obtain ⟨-, rfl⟩ := hlist.unique hlist'
  exact hfits (hall s hs)

/-- Texts that only look like positions are kept, and so is a run of digits of any length. A last position that is too
    large by one is not, and takes the range behind it along. -/
theorem parse?_range_tooLarge :
    let kept : Ranges := ⟨"bytes".toList, [.other "1-a".toList, .other "1-2-3".toList, .other ['-'],
      .other "99999999999999999999".toList, .between 5 none]⟩
    let last := "0-18446744073709551616".toList
    (∃ texts, IsList "bytes=1-a,1-2-3 , -,\t99999999999999999999,5-".toList kept.unit texts ∧
      List.Forall₂ Means texts kept.specs) ∧
    IsList ("bytes".toList ++ '=' :: (last ++ ([','] ++ "1-2".toList))) "bytes".toList [last, "1-2".toList] ∧
      ¬ Fits last ∧ Field.range.parse? ("bytes".toList ++ '=' :: (last ++ ([','] ++ "1-2".toList))) = none := by
  intro kept last
  have hkept : Field.range.parse? "bytes=1-a,1-2-3 , -,\t99999999999999999999,5-".toList = some kept := by
    decide +kernel
  have hunit : IsToken "bytes".toList := by decide +kernel
  have hcomma : IsSeparator ',' [','] := ⟨[], [], List.forall_mem_nil _, List.forall_mem_nil _, rfl⟩
  have hlast : IsText last := IsPositions.isText (accepts_positions_iff.mp (by decide +kernel))
  have hnext : IsText "1-2".toList := IsPositions.isText (accepts_positions_iff.mp (by decide +kernel))
  have hlist : IsList ("bytes".toList ++ '=' :: (last ++ ([','] ++ "1-2".toList))) "bytes".toList [last, "1-2".toList] :=
    ⟨_, hunit, .cons ⟨rfl, hlast⟩ hcomma (.one ⟨rfl, hnext⟩), rfl⟩
  have hfits : ¬ Fits last := by
    intro h
    have hfirst : ∀ c ∈ "0".toList, c.isDigit = true := List.all_eq_true.mp rfl
    have hdigits : ∀ c ∈ "18446744073709551616".toList, c.isDigit = true := List.all_eq_true.mp rfl
    exact absurd (h.1 "0".toList "18446744073709551616".toList nofun hfirst hdigits rfl).2 (by decide)
  refine ⟨((parse?_range_iff _).1 kept).mp hkept, hlist, hfits, ?_⟩
  exact (parse?_range_iff _).2.2 "bytes".toList [last, "1-2".toList] hlist ⟨last, List.mem_cons_self, hfits⟩

end HttpFields
