import HttpFields.Reader
import HttpFields.Proofs.Elements

/-!
# `HttpFields.Proofs.Codings` — how a list of codings is read

The grammar takes tokens with separators between them, and reading cuts the text at its commas and trims the pieces,
without another look at the grammar. The two agree since no token holds a comma or a blank. The empty text is the one
place where cutting would go wrong, for it has one piece, which is empty: it is the list of no codings.

* `IsCodings` — lists of codings without a grammar.
* `isCodings_of_accepts`, `accepts_of_isCodings` — what is accepted.
* `isCodings_intercalate` — joined codings are a list.
* `parse?_contentEncoding_iff` — codings are read exactly where they stand, as what they are.
-/

namespace HttpFields

namespace Codings

open Rule

/-- The text stands for the codings: an empty text for none, or the codings in their order, each of them a token, with
    commas between them. -/
def IsCodings (v : Text) (codings : List Text) : Prop :=
  (v = [] ∧ codings = []) ∨ Separated (fun x coding => x = coding ∧ IsToken x) v codings

/-! ## Accepted texts -/

/-- An accepted text stands for some codings. -/
theorem isCodings_of_accepts {v : Text} (h : grammar.accepts v = true) : ∃ codings, IsCodings v codings := by
  rcases derives_optional_iff.mp (derives_of_accepts h) with rfl | h
  · exact ⟨[], Or.inl ⟨rfl, rfl⟩⟩
  · have helement : ∀ x, Derives token x → ∃ coding, x = coding ∧ IsToken x :=
      fun x hx => ⟨x, rfl, derives_token_iff.mp hx⟩
    obtain ⟨codings, hcodings⟩ := separated_of_derives helement h
    exact ⟨codings, Or.inr hcodings⟩

theorem accepts_of_isCodings {v : Text} {codings : List Text} (h : IsCodings v codings) :
    grammar.accepts v = true := by
  unfold grammar
  rw [accepts_optional_iff]
  rcases h with ⟨hv, -⟩ | h
  · exact Or.inl hv
  · have htakes : (separated token).Takes v [] := by
      apply takes_separated _ _ h
      · intro x coding rest hx
        exact hx.2.isSolid.head rest
      · intro x coding rest hx hrest
        apply takes_token hx.2
        intro c hc
        exact not_isTokenChar_of_isBlank (by decide) (hrest c hc)
    exact Or.inr (accepts_iff_takes.mpr htakes)

/-! ## Reading -/

theorem read_of_isCodings {v : Text} {codings : List Text} (h : IsCodings v codings) :
    (read v).value = some codings := by
  unfold read
  rw [accepts_of_isCodings h, Reading.require_true, Reading.accept_bind, Reading.pure_eq_accept, Reading.value_accept]
  rcases h with ⟨hv, hcodings⟩ | h
  · rw [if_pos hv, hcodings]
  · have hne : v ≠ [] := h.ne_nil fun x coding hx => hx.2.1
    rw [if_neg hne, Text.elements_eq_of_separated (fun x hx => hx.isSolid) h]

/-- **What is read.** A text is read as the codings that it stands for. -/
theorem read_eq_some_iff {v : Text} {codings : List Text} : (read v).value = some codings ↔ IsCodings v codings :=
  Reading.value_require_bind_eq_some_iff_of_stands isCodings_of_accepts fun _ => read_of_isCodings

theorem IsCodings.isToken {v : Text} {codings : List Text} (h : IsCodings v codings) :
    ∀ coding ∈ codings, IsToken coding := by
  rcases h with ⟨-, rfl⟩ | h
  · exact List.forall_mem_nil _
  · exact h.forall_mem fun x coding hx => hx.1 ▸ hx.2

/-- Codings joined by bare commas are a list of them. -/
theorem isCodings_intercalate {codings : List Text} (h : ∀ coding ∈ codings, IsToken coding) :
    IsCodings ([','].intercalate codings) codings := by
  by_cases hne : codings = []
  · subst hne
    exact Or.inl ⟨rfl, rfl⟩
  · have hcomma : IsSeparator ',' [','] := ⟨[], [], List.forall_mem_nil _, List.forall_mem_nil _, rfl⟩
    have hlist : Separated (fun x coding => x = coding ∧ IsToken x) ([','].intercalate (codings.map id)) codings :=
      separated_intercalate hcomma hne fun coding hcoding => ⟨rfl, h coding hcoding⟩
    rw [List.map_id] at hlist
    exact Or.inr hlist

end Codings

/-- **Codings.** A text is read as a list of codings exactly when it stands for it, and refused if it stands for none. So
    what is read are tokens, without an empty one among them or a blank around one; and tokens joined by commas are read
    as they were. -/
theorem parse?_contentEncoding_iff :
    (∀ v codings, Field.contentEncoding.parse? v = some codings ↔ Codings.IsCodings v codings) ∧
      (∀ v, Field.contentEncoding.parse? v = none ↔ ∀ codings, ¬ Codings.IsCodings v codings) ∧
      (∀ v codings, Field.contentEncoding.parse? v = some codings → ∀ coding ∈ codings, IsToken coding) ∧
      ∀ codings : List Text, (∀ coding ∈ codings, IsToken coding) →
        Field.contentEncoding.parse? ([','].intercalate codings) = some codings := by
  have hread : ∀ v codings, Field.contentEncoding.parse? v = some codings ↔ Codings.IsCodings v codings :=
    fun _ _ => Codings.read_eq_some_iff
  refine ⟨hread, ?_, ?_, ?_⟩
  · intro v
    simp only [Option.eq_none_iff_forall_ne_some, Ne, hread]
  · intro v codings h
    exact ((hread v codings).mp h).isToken
  · intro codings h
    exact (hread _ codings).mpr (Codings.isCodings_intercalate h)

/-- Blanks of both kinds around a comma, and a coding given twice. A comma at the end has no coding behind it. -/
theorem parse?_contentEncoding_blanks :
    let codings : List Text := ["gzip".toList, "x-br".toList, "gzip".toList]
    let value := "gzip \t,\t x-br,gzip".toList
    Field.contentEncoding.parse? value = some codings ∧ Codings.IsCodings value codings ∧
      (∀ coding ∈ codings, IsToken coding) ∧ Field.contentEncoding.parse? ([','].intercalate codings) = some codings ∧
      ∀ codings, ¬ Codings.IsCodings "gzip,".toList codings := by
  intro codings value
  have hparse : Field.contentEncoding.parse? value = some codings := by decide +kernel
  obtain ⟨hread, hrefused, htokens, hjoined⟩ := parse?_contentEncoding_iff
  have hcodings := htokens value codings hparse
  exact ⟨hparse, (hread value codings).mp hparse, hcodings, hjoined codings hcodings,
    (hrefused _).mp (by decide +kernel)⟩

end HttpFields
