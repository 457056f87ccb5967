import HttpFields.Proofs.MediaType

/-!
# `HttpFields.Proofs.MediaType.RoundTrip` — a media type that was written is read back

A media type is written with its parameters in segments of their own. An empty map of parameters leaves no trace, so it
is read as no map at all, and a text never stands for a media type with one. Apart from that it is the words that decide:
a type, a subtype or a name has to be a token, and a value has to have characters that may stand between quotes.

* `WellFormed` — media types that can be written.
* `isMediaType_write`, `IsMediaType.wellFormed` — the two halves.
* `parse_write_contentType` — a media type is read back exactly if it is well formed, as each one that was read is.
-/

namespace HttpFields

namespace MediaType

/-- A media type that can be written: type and subtype are tokens, and the parameters, if there is a map of them, can be
    written. -/
structure WellFormed (m : MediaType) : Prop where
  isToken_type : IsToken m.type
  isToken_subtype : IsToken m.subtype
  parameters : ∀ p ∈ m.parameters, p.WellFormed

/-! ## What is read -/

theorem Segments.isEntry {t : Text} {given : List (Text × Text)} (h : Segments t given) : ∀ e ∈ given, IsEntry e := by
  induction h with
  | nil => exact List.forall_mem_nil _
  | empty _ _ ih => exact ih
  | parameter _ hp _ ih => exact List.forall_mem_cons.mpr ⟨hp.isParameter.isEntry, ih⟩

/-- **What is read can be written.** A text stands for a well-formed media type only. -/
theorem IsMediaType.wellFormed {v : Text} {m : MediaType} (h : IsMediaType v m) : m.WellFormed := by
  obtain ⟨segments, given, htype, hsubtype, hsegments, hstands, -⟩ := h
  refine ⟨htype, hsubtype, ?_⟩
  intro p hp
  rcases hstands with ⟨-, hnone⟩ | ⟨hne, p', hp', hmap⟩
  · rw [hnone] at hp
    cases hp
  · obtain rfl : p' = p := Option.some.inj (hp'.symm.trans hp)
    exact hmap.wellFormed hne hsegments.isEntry

/-! ## What is written -/

/-- The segments of entries are written one after the other, with a space behind each semicolon. -/
theorem segments_write {entries : List (Text × Text)} (h : ∀ e ∈ entries, IsEntry e) :
    Segments (entries.flatMap fun e => ';' :: ' ' :: Parameter.write e.1 e.2) entries := by
  have hsemicolon : IsSeparator ';' [';', ' '] :=
    ⟨[], [' '], List.forall_mem_nil _, List.forall_mem_singleton.mpr (Or.inl rfl), rfl⟩
  induction entries with
  | nil => exact .nil
  | cons e entries ih =>
    obtain ⟨he, hentries⟩ := List.forall_mem_cons.mp h
    rw [List.flatMap_cons]
    exact .parameter hsemicolon (isTightParameter_write he) (ih hentries)

/-- **What is written stands for what was to be written.** -/
theorem isMediaType_write {m : MediaType} (h : m.WellFormed) : IsMediaType (write m) m := by
  obtain ⟨type, subtype, parameters⟩ := m
  obtain ⟨htype, hsubtype, hparameters⟩ := h
  have hwrite : ∀ segments, type ++ '/' :: subtype ++ segments = type ++ '/' :: (subtype ++ segments) :=
    fun segments => List.append_assoc type ('/' :: subtype) segments
  cases parameters with
  | none => exact ⟨[], [], htype, hsubtype, .nil, Or.inl ⟨rfl, rfl⟩, hwrite []⟩
  | some p =>
    have hp : p.WellFormed := hparameters p rfl
    refine ⟨_, p.entries, htype, hsubtype, segments_write hp.isEntry, ?_, hwrite _⟩
    exact Or.inr ⟨hp.entries_ne_nil, p, rfl, p.isMapOf_entries⟩

end MediaType

/-- **Media types are read back.** A media type that was written is read back exactly if it is well formed. Each media
    type that is read is, so it is read back once it is written. -/
theorem parse_write_contentType :
    (∀ m : MediaType, Field.contentType.parse m.write = .ok m ↔ m.WellFormed) ∧
      (∀ (v : Text) (m : MediaType), Field.contentType.parse v = .ok m → m.WellFormed) ∧
      ∀ (v : Text) (m : MediaType), Field.contentType.parse v = .ok m → Field.contentType.parse m.write = .ok m := by
  apply Field.contentType.parse_write_of_stands (fun _ _ => MediaType.read_eq_some_iff)
  · intro v m h
    exact h.wellFormed
  · intro m h
    exact MediaType.isMediaType_write h

/-- A value with a semicolon, an equals sign and quotes of its own is read back. An empty map of parameters is not. -/
theorem parse_write_contentType_formData :
    let formData : MediaType := ⟨"multipart".toList, "form-data".toList,
      some (.ofList [("boundary".toList, "a; b=\"c\"".toList)])⟩
    Field.contentType.parse "multipart/form-data;; boundary=\"a; b=\\\"c\\\"\" ;".toList = .ok formData ∧
      formData.WellFormed ∧ Field.contentType.parse formData.write = .ok formData ∧
      Field.contentType.parse (MediaType.write ⟨"a".toList, "b".toList, some .empty⟩) ≠
        .ok ⟨"a".toList, "b".toList, some .empty⟩ := by
  intro formData
  have hread : Field.contentType.parse "multipart/form-data;; boundary=\"a; b=\\\"c\\\"\" ;".toList = .ok formData :=
    Field.parse_eq_ok_iff.mpr (by decide +kernel)
  obtain ⟨hiff, hwellFormed, hagain⟩ := parse_write_contentType
  refine ⟨hread, hwellFormed _ formData hread, hagain _ formData hread, ?_⟩
  intro h
  have hempty := ((hiff _).mp h).parameters _ rfl
  exact hempty.entries_ne_nil rfl

end HttpFields
