import HttpFields.Proofs.Ranges

/-!
# `HttpFields.Proofs.Ranges.RoundTrip` — ranges that were written are read back

Positions and lengths are written as numerals, which are those of 64-bit words and so are read as these words again. A
range in the notation of its unit is written as it is, and that is where a value can be lost: its text may break the list
or may look like positions or a length.

* `RangeSpec.WellFormed`, `Ranges.WellFormed` — the ranges that can be written.
* `isRanges_write`, `IsRanges.wellFormed` — the two halves.
* `parse_write_range` — ranges are read back exactly if they are well formed, as all that were read are.
-/

namespace HttpFields

open RangeSpec

/-! ## One range -/

namespace RangeSpec

/-- A range that can be written. In the notation of its unit it has the text of a range, but neither that of positions nor
    that of a length. -/
def WellFormed : RangeSpec → Prop
  | .other s => IsText s ∧ ¬ IsPositions s ∧ ¬ IsSuffixLength s
  | _ => True

/-- **A range is written as a text that stands for it.** -/
theorem standsFor_write {spec : RangeSpec} (h : spec.WellFormed) : StandsFor (write spec) spec := by
  have hdigits (n : Nat) : ∀ c ∈ Decimal.digits n, c.isDigit = true := fun _ hc => Decimal.isDigit_of_mem_digits hc
  have hne (n : Nat) : Decimal.digits n ≠ [] := Decimal.digits_ne_nil n
  have hvalue (n : Nat) : Decimal.value (Decimal.digits n) = n := Decimal.value_digits n
  cases spec with
  | between first last =>
    cases last with
    | none =>
      refine ⟨IsPositions.isText ?_, .onward (hne _) (hdigits _) (hvalue _)⟩
      exact ⟨_, [], hne _, hdigits _, List.forall_mem_nil _, rfl⟩
    | some last =>
      refine ⟨IsPositions.isText ?_, .between (hne _) (hdigits _) (hne _) (hdigits _) (hvalue _) (hvalue _)⟩
      exact ⟨_, _, hne _, hdigits _, hdigits _, rfl⟩
  | suffix length =>
    refine ⟨IsSuffixLength.isText ?_, .suffix (hne _) (hdigits _) (hvalue _)⟩
    exact ⟨_, hne _, hdigits _, rfl⟩
  | other s =>
    obtain ⟨htext, hpositions, hsuffix⟩ := h
    exact ⟨htext, .other hpositions hsuffix⟩

theorem StandsFor.wellFormed {s : Text} {spec : RangeSpec} (h : StandsFor s spec) : spec.WellFormed := by
  obtain ⟨htext, hmeans⟩ := h
  cases hmeans with
  | between => trivial
  | onward => trivial
  | suffix => trivial
  | other hpositions hsuffix => exact ⟨htext, hpositions, hsuffix⟩

end RangeSpec

/-! ## A unit and its ranges -/

namespace Ranges

/-- Ranges that can be written: the unit is a token, there is a range, and all ranges can be written. -/
structure WellFormed (r : Ranges) : Prop where
  isToken_unit : IsToken r.unit
  specs_ne_nil : r.specs ≠ []
  specs : ∀ spec ∈ r.specs, spec.WellFormed

/-- **What is written stands for what was to be written.** -/
theorem isRanges_write {r : Ranges} (h : r.WellFormed) : IsRanges (write r) r := by
  have hcomma : IsSeparator ',' [','] := ⟨[], [], List.forall_mem_nil _, List.forall_mem_nil _, rfl⟩
  refine ⟨_, h.isToken_unit, separated_intercalate hcomma h.specs_ne_nil ?_, rfl⟩
  intro spec hspec
  exact standsFor_write (h.specs spec hspec)

/-- **What is read can be written.** A text stands for well-formed ranges only. -/
theorem IsRanges.wellFormed {v : Text} {r : Ranges} (h : IsRanges v r) : r.WellFormed := by
  obtain ⟨list, hunit, hlist, -⟩ := h
  refine ⟨hunit, hlist.items_ne_nil, hlist.forall_mem ?_⟩
  intro x spec hx
  exact hx.wellFormed

end Ranges

/-- **Ranges are read back.** Ranges that were written are read back, in their order, exactly if they are well formed. All
    ranges that are read are, so they are read back once they are written. -/
theorem parse_write_range :
    (∀ r : Ranges, Field.range.parse r.write = .ok r ↔ r.WellFormed) ∧
      (∀ (v : Text) (r : Ranges), Field.range.parse v = .ok r → r.WellFormed) ∧
      ∀ (v : Text) (r : Ranges), Field.range.parse v = .ok r → Field.range.parse r.write = .ok r := by
  apply Field.range.parse_write_of_stands (fun _ _ => Ranges.read_eq_some_iff)
  · intro v r h
    exact h.wellFormed
  · intro r h
    exact Ranges.isRanges_write h

/-- A dash alone and the largest position are read back. A range in the notation of its unit that looks like positions is
    not. -/
theorem parse_write_range_bytes :
    let bytes : Ranges := ⟨"bytes".toList, [.between 0 (some 18446744073709551615), .suffix 80, .other ['-']]⟩
    let masked : Ranges := ⟨"bytes".toList, [.other "1-2".toList]⟩
    Field.range.parse "bytes=00-18446744073709551615 ,\t-80, -".toList = .ok bytes ∧ bytes.WellFormed ∧
      Field.range.parse bytes.write = .ok bytes ∧ Field.range.parse masked.write ≠ .ok masked := by
  intro bytes masked
  have hread : Field.range.parse "bytes=00-18446744073709551615 ,\t-80, -".toList = .ok bytes :=
    Field.parse_eq_ok_iff.mpr (by decide +kernel)
  obtain ⟨hiff, hwellFormed, hagain⟩ := parse_write_range
  refine ⟨hread, hwellFormed _ bytes hread, hagain _ bytes hread, ?_⟩
  intro h
  have hmasked : masked.WellFormed := (hiff masked).mp h
  obtain ⟨-, hpositions, -⟩ := hmasked.specs (.other "1-2".toList) List.mem_cons_self
  exact hpositions (accepts_positions_iff.mp (by decide +kernel))

end HttpFields
