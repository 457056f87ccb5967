import HttpFields.Proofs.Credentials

/-!
# `HttpFields.Proofs.Credentials.RoundTrip` — credentials that were written are read back

A text says less than credentials could hold: a scheme without parameters is written like one with an empty map of
them, and a name with a blank in it would fall apart. `WellFormed` leaves out what a text cannot say. Well-formed
credentials are written as a text that stands for them, and a text stands for well-formed credentials only.

* `WellFormed` — credentials that can be written.
* `isCredentials_write`, `IsCredentials.wellFormed` — the two halves.
* `parse_write_authorization` — credentials are read back exactly if they are well formed, as all that were read are.
-/

namespace HttpFields

/-- What follows a scheme can be written: a word that is a `token68` and not empty, or parameters that can be
    written. -/
def Authentication.WellFormed : Authentication → Prop
  | .token68 word => word ≠ [] ∧ Rule.token68.accepts word = true
  | .parameters p => p.WellFormed

namespace Credentials

open Rule

/-- Credentials that can be written: the scheme is a token, and what follows it, if anything does, can be written. -/
structure WellFormed (c : Credentials) : Prop where
  isToken : IsToken c.scheme
  authentication : ∀ a ∈ c.authentication, a.WellFormed

theorem accepts_token68_iff {w : Text} : Rule.token68.accepts w = true ↔ IsToken68 w := by
  constructor
  · intro h
    exact isToken68_of_derives (derives_of_accepts h)
  · intro h
    exact accepts_iff_takes.mpr (takes_token68 h)

/-- A text is read as the credentials that it stands for. -/
theorem read_eq_some_iff {v : Text} {c : Credentials} : (read v).value = some c ↔ IsCredentials v c :=
  Reading.value_require_bind_eq_some_iff_of_stands isCredentials_of_accepts fun _ => read_of_isCredentials

/-! ## What is read -/

/-- **What is read can be written.** A text stands for well-formed credentials only. -/
theorem IsCredentials.wellFormed {v : Text} {c : Credentials} (h : IsCredentials v c) : c.WellFormed := by
  cases h with
  | bare hscheme _ => exact ⟨hscheme, nofun⟩
  | @parameters scheme spaces list given p hscheme _ _ hlist hp =>
    have hgiven : ∀ e ∈ given, IsEntry e := hlist.forall_mem fun _ _ hp => hp.isEntry
    refine ⟨hscheme, ?_⟩
    rintro a ⟨⟩
    exact hp.wellFormed hlist.items_ne_nil hgiven
  | @token68 scheme spaces word hscheme _ _ hword hne =>
    refine ⟨hscheme, ?_⟩
    rintro a ⟨⟩
    exact ⟨hne, accepts_token68_iff.mpr hword⟩

/-! ## What is written -/

/-- Parameters are written behind a space, with a comma and a space between them. -/
theorem write_parameters {scheme : Text} {p : Parameters} (hp : p.entries ≠ []) :
    write ⟨scheme, some (.parameters p)⟩ =
      scheme ++ ([' '] ++ [',', ' '].intercalate (p.entries.map fun e => Parameter.write e.1 e.2)) := by
  obtain ⟨entries, hascending⟩ := p
  cases entries with
  | nil => exact absurd rfl hp
  | cons entry entries => rfl

theorem isSeparator_comma_space : IsSeparator ',' [',', ' '] := by
  have hspace : IsBlanks [' '] := List.forall_mem_singleton.mpr (Or.inl rfl)
  exact ⟨[], [' '], List.forall_mem_nil _, hspace, rfl⟩

/-- **What is written stands for what was to be written.** -/
theorem isCredentials_write {c : Credentials} (h : c.WellFormed) : IsCredentials (write c) c := by
  obtain ⟨scheme, authentication⟩ := c
  obtain ⟨hscheme, hauthentication⟩ := h
  have hspace : IsSpaces [' '] := List.forall_mem_singleton.mpr rfl
  have hne : [' '] ≠ [] := List.cons_ne_nil ' ' []
  cases authentication with
  | none =>
    have hbare : IsCredentials (scheme ++ []) ⟨scheme, none⟩ := .bare hscheme (List.forall_mem_nil _)
    rwa [List.append_nil] at hbare
  | some a =>
    have ha : a.WellFormed := hauthentication a rfl
    cases a with
    | token68 word => exact .token68 hscheme hspace hne (accepts_token68_iff.mp ha.2) ha.1
    | parameters p =>
      have hlist := separated_intercalate (R := IsParameter) isSeparator_comma_space ha.entries_ne_nil
        fun e he => (isTightParameter_write (ha.isEntry e he)).isParameter
      rw [write_parameters ha.entries_ne_nil]
      exact .parameters hscheme hspace hne hlist p.isMapOf_entries

end Credentials

/-- **Credentials are read back.** Credentials that were written are read back exactly if they are well formed. All
    credentials that are read are, so they are read back once they are written. -/
theorem parse_write_authorization :
    (∀ c : Credentials, Field.authorization.parse c.write = .ok c ↔ c.WellFormed) ∧
      (∀ (v : Text) (c : Credentials), Field.authorization.parse v = .ok c → c.WellFormed) ∧
      ∀ (v : Text) (c : Credentials), Field.authorization.parse v = .ok c →
        Field.authorization.parse c.write = .ok c := by
  apply Field.authorization.parse_write_of_stands (fun _ _ => Credentials.read_eq_some_iff)
  · intro v c h
    exact h.wellFormed
  · intro c h
    exact Credentials.isCredentials_write h

/-- Values with commas, equals signs and quotes of their own are read back. An empty map of parameters is not. -/
theorem parse_write_authorization_digest :
    let digest : Credentials := ⟨"Digest".toList,
      some (.parameters (.ofList [("uri".toList, "/x=y".toList), ("realm".toList, "a, \"b\"".toList)]))⟩
    Field.authorization.parse "Digest uri=\"/x=y\" ,realm = \"a, \\\"b\\\"\"".toList = .ok digest ∧
      digest.WellFormed ∧ Field.authorization.parse digest.write = .ok digest ∧
      Field.authorization.parse (Credentials.write ⟨"Digest".toList, some (.parameters .empty)⟩) ≠
        .ok ⟨"Digest".toList, some (.parameters .empty)⟩ := by
  intro digest
  have hread : Field.authorization.parse "Digest uri=\"/x=y\" ,realm = \"a, \\\"b\\\"\"".toList = .ok digest :=
    Field.parse_eq_ok_iff.mpr (by decide +kernel)
  obtain ⟨hiff, hwellFormed, hagain⟩ := parse_write_authorization
  refine ⟨hread, hwellFormed _ digest hread, hagain _ digest hread, ?_⟩
  intro h
  have hempty := ((hiff _).mp h).authentication _ rfl
  exact hempty.entries_ne_nil rfl

end HttpFields
