import HttpFields.Reader
import HttpFields.Proofs.Parameter

/-!
# `HttpFields.Proofs.MediaType` — how a media type is read

Media types stated by the segments behind their subtype, each a semicolon and possibly a parameter. Blanks between two
semicolons may count for either of them; the reader counts them for the first. A `Walk` is the text cut as the reader
cuts it, and every text of segments has one (`Segments.exists_walk`), which the grammar takes and the reader follows.

* `Segments`, `IsMediaType` — media types as they are written.
* `Walk`, `takes_of_walk`, `readEach?_of_walk` — the segments as they are taken and read.
* `isMediaType_of_accepts`, `read_of_isMediaType` — what is accepted, and what it is read as.
* `parse?_contentType_iff` — media types are read exactly where they stand, and empty segments are skipped.
-/

namespace HttpFields

namespace MediaType

open Rule

/-! ## Media types without a grammar -/

/-- The text is any number of semicolons with optional blanks around them, behind each a parameter or nothing. The
    entries are those that the parameters stand for, in order. -/
inductive Segments : Text → List (Text × Text) → Prop where
  | nil : Segments [] []
  | empty {s t : Text} {given : List (Text × Text)} :
      IsSeparator ';' s → Segments t given → Segments (s ++ t) given
  | parameter {s p t : Text} {entry : Text × Text} {given : List (Text × Text)} :
      IsSeparator ';' s → IsTightParameter p entry → Segments t given → Segments (s ++ (p ++ t)) (entry :: given)

/-- The parameters that entries stand for: their map, or none if there are no entries. -/
def StandsFor (given : List (Text × Text)) (parameters : Option Parameters) : Prop :=
  given = [] ∧ parameters = none ∨ given ≠ [] ∧ ∃ p, parameters = some p ∧ p.IsMapOf given

/-- The text stands for the media type. -/
def IsMediaType (v : Text) (m : MediaType) : Prop :=
  ∃ segments given, IsToken m.type ∧ IsToken m.subtype ∧ Segments segments given ∧ StandsFor given m.parameters ∧
    v = m.type ++ '/' :: (m.subtype ++ segments)

theorem standsFor_iff {given : List (Text × Text)} {parameters : Option Parameters} :
    StandsFor given parameters ↔
      parameters = if (Parameters.ofList given).isEmpty then none else some (Parameters.ofList given) := by
  by_cases hgiven : given = []
  · subst hgiven
    constructor
    · rintro (⟨-, h⟩ | ⟨hne, -⟩)
      · exact h
      · exact absurd rfl hne
    · intro h
      exact Or.inl ⟨rfl, h⟩
  · have hne : (Parameters.ofList given).entries ≠ [] := (Parameters.isMapOf_ofList given).entries_ne_nil hgiven
    have hempty : (Parameters.ofList given).isEmpty = false := List.isEmpty_eq_false_iff.mpr hne
    rw [hempty, if_neg Bool.false_ne_true]
    constructor
    · rintro (⟨h, -⟩ | ⟨-, p, hp, hmap⟩)
      · exact absurd h hgiven
      · rw [hp, Parameters.isMapOf_iff.mp hmap]
    · intro h
      exact Or.inr ⟨hgiven, Parameters.ofList given, h, Parameters.isMapOf_ofList given⟩

/-- Segments behind segments are segments, with the parameters of both. -/
theorem Segments.append {s t : Text} {given given' : List (Text × Text)} (hs : Segments s given)
    (ht : Segments t given') : Segments (s ++ t) (given ++ given') := by
  induction hs with
  | nil => exact ht
  | empty hsep _ ih =>
    rw [List.append_assoc]
    exact .empty hsep ih
  | parameter hsep hp _ ih =>
    rw [List.append_assoc, List.append_assoc]
    exact .parameter hsep hp ih

/-! ## Accepted texts -/

theorem isTightParameter_of_derives {p : Text} (h : Derives parameter p) : ∃ entry, IsTightParameter p entry := by
  obtain ⟨name, v, rfl, hname, hv⟩ := derives_delimited_iff.mp h
  obtain ⟨value, hvalue⟩ := isValue_of_derives (derives_sequence_singleton_iff.mp hv)
  exact ⟨(name, value), v, derives_token_iff.mp hname, hvalue, rfl⟩

theorem segments_of_derives {t : Text} (h : Derives (many (.sequence [separator ';', optional parameter])) t) :
    ∃ given, Segments t given := by
  refine h.many_induction (P := fun t => ∃ given, Segments t given) ⟨[], .nil⟩ ?_
  rintro segment t hsegment ⟨given, hgiven⟩
  obtain ⟨s, p, rfl, hs, hp⟩ := derives_sequence_cons_iff.mp hsegment
  have hs : IsSeparator ';' s := isSeparator_of_derives hs
  rw [List.append_assoc]
  rcases derives_optional_iff.mp (derives_sequence_singleton_iff.mp hp) with rfl | hp
  · exact ⟨given, .empty hs hgiven⟩
  · obtain ⟨entry, hentry⟩ := isTightParameter_of_derives hp
    exact ⟨entry :: given, .parameter hs hentry hgiven⟩

/-- An accepted text stands for some media type. -/
theorem isMediaType_of_accepts {v : Text} (h : grammar.accepts v = true) : ∃ m, IsMediaType v m := by
  obtain ⟨type, u, rfl, htype, hu⟩ := derives_delimited_iff.mp (derives_of_accepts h)
  obtain ⟨subtype, segments, rfl, hsubtype, hsegments⟩ := derives_sequence_cons_iff.mp hu
  obtain ⟨given, hgiven⟩ := segments_of_derives (derives_sequence_singleton_iff.mp hsegments)
  exact ⟨⟨type, subtype, _⟩, segments, given, derives_token_iff.mp htype, derives_token_iff.mp hsubtype, hgiven,
    standsFor_iff.mpr rfl, rfl⟩

/-! ## The walk along the segments -/

/-- The text cut into segments as the reader cuts it: no blank is left behind a semicolon. The items are what the steps
    of the reader give, nothing for a segment without a parameter. -/
inductive Walk : Text → List (Option (Text × Text)) → Prop where
  | nil : Walk [] []
  | empty {s t : Text} {items : List (Option (Text × Text))} :
      IsSeparator ';' s → (∀ c ∈ t.head?, Text.isBlank c = false) → Walk t items → Walk (s ++ t) (none :: items)
  | parameter {s p t : Text} {entry : Text × Text} {items : List (Option (Text × Text))} :
      IsSeparator ';' s → IsTightParameter p entry → Walk t items → Walk (s ++ (p ++ t)) (some entry :: items)

/-- **Every text of segments has a walk**, also if blanks at its start were counted for what is in front of it. -/
theorem Segments.exists_walk {t : Text} {given : List (Text × Text)} (h : Segments t given) {b u : Text}
    (hb : IsBlanks b) (ht : t = b ++ u) : ∃ items, Walk u items ∧ items.filterMap id = given := by
  induction h generalizing b u with
  | nil =>
    obtain ⟨-, rfl⟩ := List.append_eq_nil_iff.mp ht.symm
    exact ⟨[], .nil, rfl⟩
  | @empty s t given hs _ ih =>
    obtain ⟨s', hs', rfl⟩ := hs.exists_of_append_eq rfl hb ht
    -- the blanks in front of the next semicolon count for this one
    obtain ⟨b', u', hb', hu', hsplit⟩ := exists_blanks_append t
    obtain ⟨items, hitems, hgiven⟩ := ih hb' hsplit
    rw [hsplit, ← List.append_assoc]
    exact ⟨none :: items, .empty (hs'.append hb') hu' hitems, hgiven⟩
  | @parameter s p t entry given hs hp _ ih =>
    obtain ⟨s', hs', rfl⟩ := hs.exists_of_append_eq rfl hb ht
    obtain ⟨items, hitems, rfl⟩ := ih (List.forall_mem_nil _) rfl
    exact ⟨some entry :: items, .parameter hs' hp hitems, rfl⟩

theorem Walk.head {t : Text} {items : List (Option (Text × Text))} (h : Walk t items) :
    ∀ c ∈ t.head?, ¬ IsTokenChar c := by
  have hblank : ∀ c ∈ t.head?, Text.isBlank c = true ∨ c = ';' := by
    cases h with
    | nil => exact nofun
    | empty hs _ _ => exact hs.head _
    | parameter hs _ _ => exact hs.head _
  intro c hc
  exact not_isTokenChar_of_isBlank (by decide) (hblank c hc)

theorem takes_parameter {p : Text} {entry : Text × Text} {rest : Text} (h : IsTightParameter p entry)
    (hrest : ∀ c ∈ rest.head?, ¬ IsTokenChar c) : parameter.Takes p rest := by
  obtain ⟨v, hname, hv, rfl⟩ := h
  refine .cons (takes_token_cons hname ?_ _) (.cons (Takes.terminal '=' _) (takes_wordValue hv hrest).singleton)
  decide

/-- What follows a segment without a parameter is no parameter either. -/
theorem parse?_parameter_eq_none {t : Text} (h : ∀ c ∈ t.head?, ¬ IsTokenChar c) : parameter.parse? t = none := by
  rw [parameter, parse?_sequence_cons, parse?_token_eq_none h]
  rfl

/-- **The grammar goes along.** Any number of segments takes all of a walk. -/
theorem takes_of_walk {t : Text} {items : List (Option (Text × Text))} (h : Walk t items) :
    (many (.sequence [separator ';', optional parameter])).Takes t [] := by
  induction h with
  | nil =>
    refine .repetition_nil (Or.inr ?_)
    rw [parse?_sequence_cons]
    rfl
  | @empty s t items hs ht hwalk ih =>
    have hnone : (optional parameter).Takes [] t := Takes.optional_nil (parse?_parameter_eq_none hwalk.head)
    have hsegment : (sequence [separator ';', optional parameter]).Takes (s ++ []) t :=
      .cons (takes_separator rfl hs ht) hnone.singleton
    rw [List.append_nil] at hsegment
    refine Takes.repetition_cons hs.ne_nil nofun ?_ ih
    rw [List.append_nil]
    exact hsegment
  | @parameter s p t entry items hs hp hwalk ih =>
    have hsegment : (sequence [separator ';', optional parameter]).Takes (s ++ p) t :=
      .cons (takes_separator rfl hs (hp.isParameter.head t)) (takes_parameter hp hwalk.head).optional.singleton
    rw [← List.append_assoc]
    refine Takes.repetition_cons (List.append_ne_nil_of_left_ne_nil hs.ne_nil p) nofun ?_ ih
    rw [List.append_nil]
    exact hsegment

/-! ## Reading -/

theorem readParameter?_empty {s t : Text} (hs : IsSeparator ';' s) (ht : ∀ c ∈ t.head?, Text.isBlank c = false)
    (hhead : ∀ c ∈ t.head?, ¬ IsTokenChar c) : readParameter? (s ++ t) = some (none, t) := by
  have hsep : (separator ';').parse? (s ++ t) = some ⟨s, t⟩ := takes_separator rfl hs ht
  rw [readParameter?, hsep, Option.bind_eq_bind, Option.bind_some, parse?_parameter_eq_none hhead]
  rfl

theorem readParameter?_parameter {s p t : Text} {entry : Text × Text} (hs : IsSeparator ';' s)
    (hp : IsTightParameter p entry) (hhead : ∀ c ∈ t.head?, ¬ IsTokenChar c) :
    readParameter? (s ++ (p ++ t)) = some (some entry, t) := by
  have hsep : (separator ';').parse? (s ++ (p ++ t)) = some ⟨s, p ++ t⟩ := takes_separator rfl hs (hp.isParameter.head t)
  have htake : parameter.parse? (p ++ t) = some ⟨p, t⟩ := takes_parameter hp hhead
  rw [readParameter?, hsep, Option.bind_eq_bind, Option.bind_some, htake]
  show ((Parameter.read? p).bind fun entry => some (some entry, t)) = _
  rw [Parameter.read?_of_isParameter hp.isParameter]
  rfl

/-- **The reader goes along.** The steps of the reader give the items of a walk. -/
theorem readEach?_of_walk {t : Text} {items : List (Option (Text × Text))} (h : Walk t items) :
    t.readEach? readParameter? = some items := by
  induction h with
  | nil => rfl
  | @empty s t items hs ht hwalk ih =>
    refine Text.readEach?_of_step (readParameter?_empty hs ht hwalk.head) ?_ ih
    have hpos : 0 < s.length := List.length_pos_iff.mpr hs.ne_nil
    rw [List.length_append]
    omega
  | @parameter s p t entry items hs hp hwalk ih =>
    refine Text.readEach?_of_step (readParameter?_parameter hs hp hwalk.head) ?_ ih
    have hpos : 0 < s.length := List.length_pos_iff.mpr hs.ne_nil
    rw [List.length_append, List.length_append]
    omega

/-- **What is read.** A text that stands for a media type is read as that. -/
theorem read_of_isMediaType {v : Text} {m : MediaType} (h : IsMediaType v m) : (read v).value = some m := by
  obtain ⟨type, subtype, parameters⟩ := m
  obtain ⟨segments, given, htype, hsubtype, hsegments, hstands, rfl⟩ := h
  obtain ⟨items, hwalk, rfl⟩ := hsegments.exists_walk (List.forall_mem_nil _) rfl
  have htype : token.Takes type ('/' :: (subtype ++ segments)) := takes_token_cons htype (by decide) _
  have hsubtype : token.Takes subtype segments := takes_token hsubtype hwalk.head
  have hgrammar : grammar.Takes (type ++ '/' :: (subtype ++ segments)) [] := by
    refine .cons (y := ['/'] ++ _) ?_ (.cons (.terminal '/' _) (.cons ?_ (takes_of_walk hwalk).singleton))
    · rw [List.append_nil]
      exact htype
    · rw [List.append_nil]
      exact hsubtype
  have hparameters : readParameters? segments = some (.ofList (items.filterMap id)) := by
    rw [readParameters?, readEach?_of_walk hwalk]
    rfl
  rw [read, accepts_iff_takes.mpr hgrammar, Reading.require_true, Reading.accept_bind, htype, Reading.lift_some,
    Reading.accept_bind]
  show (Reading.lift (token.parse? (subtype ++ segments)) >>= _).value = _
  rw [hsubtype, Reading.lift_some, Reading.accept_bind, hparameters, Reading.lift_some, Reading.accept_bind]
  exact congrArg (fun p => some (⟨type, subtype, p⟩ : MediaType)) (standsFor_iff.mp hstands).symm

/-- A text is read as the media type that it stands for. -/
theorem read_eq_some_iff {v : Text} {m : MediaType} : (read v).value = some m ↔ IsMediaType v m :=
  Reading.value_require_bind_eq_some_iff_of_stands isMediaType_of_accepts fun _ => read_of_isMediaType

/-- A media type is accepted without an event. -/
theorem read_eq_accept {v : Text} {m : MediaType} (h : IsMediaType v m) : read v = .accept m := by
  apply Reading.require_bind_eq_accept _ (read_of_isMediaType h)
  apply (Reading.isQuiet_lift _).bind
  intro type
  apply (Reading.isQuiet_lift _).bind
  intro subtype
  exact (Reading.isQuiet_lift _).bind fun _ => Reading.isQuiet_accept _

/-- A text stands for one media type at most. -/
theorem IsMediaType.unique {v : Text} {m m' : MediaType} (h : IsMediaType v m) (h' : IsMediaType v m') : m = m' := by
  have hread : (read v).value = some m := read_of_isMediaType h
  rw [read_of_isMediaType h'] at hread
  exact (Option.some.inj hread).symm

/-- **Empty segments are skipped.** A semicolon with nothing behind it does not change what is read, wherever it stands
    among the segments. -/
theorem read_skip_empty {type subtype first second s : Text} {given given' : List (Text × Text)} (htype : IsToken type)
    (hsubtype : IsToken subtype) (hfirst : Segments first given) (hsecond : Segments second given')
    (hs : IsSeparator ';' s) :
    (read (type ++ '/' :: (subtype ++ (first ++ (s ++ second))))).value =
      (read (type ++ '/' :: (subtype ++ (first ++ second)))).value := by
  obtain ⟨parameters, hparameters⟩ : ∃ parameters, StandsFor (given ++ given') parameters := ⟨_, standsFor_iff.mpr rfl⟩
  -- the parameters are the same with the semicolon and without it
  have hread : ∀ segments, Segments segments (given ++ given') →
      (read (type ++ '/' :: (subtype ++ segments))).value = some ⟨type, subtype, parameters⟩ := by
    intro segments hsegments
    exact read_of_isMediaType ⟨segments, given ++ given', htype, hsubtype, hsegments, hparameters, rfl⟩
  rw [hread _ (hfirst.append (.empty hs hsecond)), hread _ (hfirst.append hsecond)]

end MediaType

/-- **Media types.** A text is read as a media type exactly when it stands for it: a type, a subtype, and segments, each of
    which is a semicolon with a parameter or with nothing behind it. No text stands for two, and a segment with nothing in
    it changes nothing. -/
theorem parse?_contentType_iff (v : Text) :
    (∀ m, Field.contentType.parse? v = some m ↔ MediaType.IsMediaType v m) ∧
      (∀ m m', MediaType.IsMediaType v m → MediaType.IsMediaType v m' → m = m') ∧
      ∀ type subtype first second s given given', IsToken type → IsToken subtype → MediaType.Segments first given →
        MediaType.Segments second given' → IsSeparator ';' s → v = type ++ '/' :: (subtype ++ (first ++ second)) →
        Field.contentType.parse? (type ++ '/' :: (subtype ++ (first ++ (s ++ second)))) = Field.contentType.parse? v := by
  refine ⟨fun m => MediaType.read_eq_some_iff, fun m m' h => h.unique, ?_⟩
  rintro type subtype first second s given given' htype hsubtype hfirst hsecond hs rfl
  exact MediaType.read_skip_empty htype hsubtype hfirst hsecond hs

/-- A boundary that holds a semicolon and an equals sign of its own, and a parameter with an empty segment in front of it
    and without. -/
theorem parse?_contentType_boundary :
    let mixed : MediaType := ⟨"multipart".toList, "mixed".toList, some (.ofList [("boundary".toList, "a;b=c".toList)])⟩
    let plain : MediaType := ⟨"text".toList, "plain".toList, some (.ofList [("charset".toList, "utf-8".toList)])⟩
    MediaType.IsMediaType "multipart/mixed; ;boundary=\"a;b=c\"".toList mixed ∧
      MediaType.Segments ";charset=utf-8".toList [("charset".toList, "utf-8".toList)] ∧ IsSeparator ';' " ;".toList ∧
      Field.contentType.parse? "text/plain;charset=utf-8".toList = some plain ∧
      Field.contentType.parse? "text/plain ;;charset=utf-8".toList = some plain := by
  intro mixed plain
  have htype : IsToken "text".toList := by decide +kernel
  have hsubtype : IsToken "plain".toList := by decide +kernel
  have hname : IsToken "charset".toList := by decide +kernel
  have hvalue : IsToken "utf-8".toList := by decide +kernel
  have hparameter : IsTightParameter "charset=utf-8".toList ("charset".toList, "utf-8".toList) :=
    ⟨"utf-8".toList, hname, Or.inl ⟨hvalue, rfl⟩, by decide⟩
  have hsegments : MediaType.Segments ([';'] ++ ("charset=utf-8".toList ++ [])) [("charset".toList, "utf-8".toList)] :=
    .parameter ⟨[], [], List.forall_mem_nil _, List.forall_mem_nil _, rfl⟩ hparameter .nil
  have hsemicolon : IsSeparator ';' " ;".toList :=
    ⟨[' '], [], List.forall_mem_singleton.mpr (Or.inl rfl), List.forall_mem_nil _, by decide⟩
  have hplain : Field.contentType.parse? "text/plain;charset=utf-8".toList = some plain := by decide +kernel
  have hmixed : Field.contentType.parse? "multipart/mixed; ;boundary=\"a;b=c\"".toList = some mixed := by decide +kernel
  have hskip := (parse?_contentType_iff "text/plain;charset=utf-8".toList).2.2 "text".toList "plain".toList []
    ([';'] ++ ("charset=utf-8".toList ++ [])) " ;".toList [] [("charset".toList, "utf-8".toList)] htype hsubtype .nil
    hsegments hsemicolon (by decide)
  rw [hplain] at hskip
  exact ⟨((parse?_contentType_iff _).1 mixed).mp hmixed, hsegments, hsemicolon, hplain, hskip⟩

end HttpFields
