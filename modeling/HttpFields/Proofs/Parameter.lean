import HttpFields.Parameter
import HttpFields.Proofs.Elements
import HttpFields.Proofs.Quoted

/-!
# `HttpFields.Proofs.Parameter` — parameters without a grammar

A written parameter and the entry it stands for, and the map that a list of entries stands for: each name has the value
that is given for it last. A map can be written if its entries can, and so can any map that was read.

* `IsParameter`, `Parameter.read?_of_isParameter` — one parameter, and what is read off it.
* `IsTightParameter`, `isTightParameter_write` — one parameter without blanks, as it is written.
* `Parameters.IsMapOf`, `Parameters.isMapOf_iff` — the map of a list of entries.
* `Parameters.WellFormed`, `Parameters.IsMapOf.wellFormed` — maps that can be written.
-/

namespace HttpFields

/-! ## One parameter -/

/-- The text is a parameter: a name, an equals sign with optional blanks around it, and a value. -/
def IsParameter (p : Text) (entry : Text × Text) : Prop :=
  ∃ s v, IsToken entry.1 ∧ IsSeparator '=' s ∧ IsValue v entry.2 ∧ p = entry.1 ++ (s ++ v)

/-- A parameter starts with its name, and so with no blank. -/
theorem IsParameter.head {p : Text} {entry : Text × Text} (h : IsParameter p entry) (rest : Text) :
    ∀ c ∈ (p ++ rest).head?, Text.isBlank c = false := by
  obtain ⟨s, v, hname, -, -, rfl⟩ := h
  obtain ⟨d, hd, hhead⟩ := hname.head (s ++ v ++ rest)
  intro c hc
  rw [List.append_assoc] at hc
  rw [hhead c hc]
  exact hd.isBlank_eq_false

/-- **One parameter.** What is read off a parameter is its name and the value it stands for, wherever its value holds
    equals signs or blanks of its own. -/
theorem Parameter.read?_of_isParameter {p : Text} {entry : Text × Text} (h : IsParameter p entry) :
    read? p = some entry := by
  obtain ⟨_, v, ⟨hne, hname⟩, ⟨w, w', hw, hw', rfl⟩, hv, rfl⟩ := h
  have hcut : Text.cutAt? '=' (entry.1 ++ (w ++ '=' :: w' ++ v)) = some (entry.1 ++ w, w' ++ v) := by
    refine Text.cutAt?_eq_some_iff.mpr ⟨?_, ?_⟩
    · rw [List.append_assoc, List.append_assoc]
      rfl
    · -- the first equals sign is the separator, for neither a name nor a blank is one
      intro h
      rcases List.mem_append.mp h with h | h
      · exact absurd (hname '=' h) (by decide)
      · exact absurd (hw '=' h) (by decide)
  have hleft : (entry.1 ++ w).dropBlanksEnd = entry.1 := by
    apply Text.dropBlanksEnd_append fun c hc => isBlank_iff.mpr (hw c hc)
    intro c hc
    exact (hname c (List.mem_of_getLast? hc)).isBlank_eq_false
  have hright : (w' ++ v).dropBlanks = v := by
    apply Text.dropBlanks_append fun c hc => isBlank_iff.mpr (hw' c hc)
    have hhead := hv.head []
    rwa [List.append_nil] at hhead
  rw [read?, hcut, Option.map_some]
  show some ((entry.1 ++ w).dropBlanksEnd, Quoted.decode (w' ++ v).dropBlanks) = some entry
  rw [hleft, hright, Quoted.decode_of_isValue hv]

/-! ## Writing one parameter -/

/-- The text is a parameter with no blanks around its equals sign. -/
def IsTightParameter (p : Text) (entry : Text × Text) : Prop :=
  ∃ v, IsToken entry.1 ∧ IsValue v entry.2 ∧ p = entry.1 ++ '=' :: v

/-- An entry that can be written: its name is a token, and the characters of its value may stand between quotes. -/
def IsEntry (entry : Text × Text) : Prop := IsToken entry.1 ∧ ∀ c ∈ entry.2, IsEscapable c

theorem IsTightParameter.isParameter {p : Text} {entry : Text × Text} (h : IsTightParameter p entry) :
    IsParameter p entry := by
  obtain ⟨v, hname, hv, rfl⟩ := h
  have hsep : IsSeparator '=' ['='] := ⟨[], [], List.forall_mem_nil _, List.forall_mem_nil _, rfl⟩
  exact ⟨['='], v, hname, hsep, hv, rfl⟩

/-- A parameter stands for an entry that can be written. -/
theorem IsParameter.isEntry {p : Text} {entry : Text × Text} (h : IsParameter p entry) : IsEntry entry := by
  obtain ⟨s, v, hname, -, hv, -⟩ := h
  exact ⟨hname, hv.isEscapable⟩

/-- **Writing one parameter.** An entry that can be written is written as a parameter that stands for it. -/
theorem isTightParameter_write {entry : Text × Text} (h : IsEntry entry) :
    IsTightParameter (Parameter.write entry.1 entry.2) entry :=
  ⟨Quoted.encodeIfNeeded entry.2, h.1, Quoted.isValue_encodeIfNeeded h.2, rfl⟩

/-! ## The map of parameters -/

namespace Parameters

/-- Each name has the value that the list gives for it last. -/
def IsMapOf (p : Parameters) (given : List (Text × Text)) : Prop :=
  ∀ name value, p.get? name = some value ↔
    ∃ before after, given = before ++ (name, value) :: after ∧ ∀ e ∈ after, e.1 ≠ name

theorem isMapOf_ofList (given : List (Text × Text)) : (ofList given).IsMapOf given := by
  intro name value
  rw [get?_ofList, List.lookup_eq_some_iff]
  constructor
  · rintro ⟨front, back, hgiven, hfront⟩
    refine ⟨back.reverse, front.reverse, ?_, fun e he => ?_⟩
    · rw [← List.reverse_reverse given, hgiven, List.reverse_append, List.reverse_cons, List.append_assoc]
      rfl
    · exact Ne.symm (bne_iff_ne.mp (hfront e (List.mem_reverse.mp he)))
  · rintro ⟨before, after, rfl, hafter⟩
    refine ⟨after.reverse, before.reverse, ?_, fun e he => ?_⟩
    · rw [List.reverse_append, List.reverse_cons, List.append_assoc]
      rfl
    · exact bne_iff_ne.mpr (Ne.symm (hafter e (List.mem_reverse.mp he)))

/-- **The map of a list.** There is one map that a list of entries stands for. -/
theorem isMapOf_iff {p : Parameters} {given : List (Text × Text)} : p.IsMapOf given ↔ p = ofList given := by
  constructor
  · intro h
    refine ext_get? fun name => Option.ext fun value => ?_
    rw [h name value, isMapOf_ofList given name value]
  · rintro rfl
    exact isMapOf_ofList given

/-- A map is the map of its own entries, no two of which have the same name. -/
theorem isMapOf_entries (p : Parameters) : p.IsMapOf p.entries := by
  intro name value
  rw [← mem_entries_iff]
  constructor
  · intro hmem
    obtain ⟨before, after, hentries⟩ := List.append_of_mem hmem
    refine ⟨before, after, hentries, ?_⟩
    -- names ascend, so those behind an entry are greater than its own
    have hafter : ((name, value) :: after).Pairwise (·.1 < ·.1) := by
      have hascending := p.ascending
      rw [hentries] at hascending
      exact (List.pairwise_append.mp hascending).2.1
    intro e he heq
    have hlt : name < e.1 := (List.pairwise_cons.mp hafter).1 e he
    rw [heq] at hlt
    exact List.lt_irrefl name hlt
  · rintro ⟨before, after, hentries, -⟩
    rw [hentries]
    exact List.mem_append_right before List.mem_cons_self

/-- The entries of a map are among those it was given. -/
theorem IsMapOf.mem {p : Parameters} {given : List (Text × Text)} (h : p.IsMapOf given) {e : Text × Text}
    (he : e ∈ p.entries) : e ∈ given := by
  obtain ⟨before, after, rfl, -⟩ := (h e.1 e.2).mp (mem_entries_iff.mp he)
  exact List.mem_append_right before List.mem_cons_self

/-- A map that was given an entry has one: the last one given is in force. -/
theorem IsMapOf.entries_ne_nil {p : Parameters} {given : List (Text × Text)} (h : p.IsMapOf given)
    (hgiven : given ≠ []) : p.entries ≠ [] := by
  have hsplit : given = given.dropLast ++ [given.getLast hgiven] := (List.dropLast_append_getLast hgiven).symm
  have hlast := (h _ _).mpr ⟨given.dropLast, [], hsplit, List.forall_mem_nil _⟩
  exact List.ne_nil_of_mem (mem_entries_iff.mpr hlast)

/-! ## Maps that can be written -/

/-- Parameters that can be written: there is one at least, and each is an entry that can be written. -/
structure WellFormed (p : Parameters) : Prop where
  entries_ne_nil : p.entries ≠ []
  isEntry : ∀ e ∈ p.entries, IsEntry e

/-- **What was given can be written.** The map of entries that can be written can be written, if there are any. -/
theorem IsMapOf.wellFormed {p : Parameters} {given : List (Text × Text)} (h : p.IsMapOf given)
    (hgiven : given ≠ []) (hentry : ∀ e ∈ given, IsEntry e) : p.WellFormed where
  entries_ne_nil := h.entries_ne_nil hgiven
  isEntry e he := hentry e (h.mem he)

end Parameters

end HttpFields
