import HttpFields.Proofs.Decimal
import HttpFields.Proofs.Host.RoundTrip

/-!
# `HttpFields.Proofs.Host.Parts` — the two parts of a host

A host is a name and a port part. The name is an address in square brackets or a registered name, and the port part is
empty, or a colon and digits. A text that has such parts is refused for one reason only, that the number of its port
needs more than 16 bits: the walk that takes the parts apart never fails where the grammar has found them.

An IPv4 address has no rule of its own among the names. It is a registered name, and so is what comes of it when more of
a name stands behind it, so that nothing is cut off.

* `exists_standsFor_iff` — port parts that stand for a port, or for none.
* `parse?_eq_some_iff`, `parse?_eq_none_iff` — when a text is read, and when it is refused.
* `parse?_host_iff` — both, and the names that start with an IPv4 address.
-/

namespace HttpFields

namespace Host

open Rule

/-! ## Ports -/

/-- A port part stands for a port, or for none, unless its number needs more than 16 bits. -/
theorem exists_standsFor_iff {tail : Text} (h : IsPortPart tail) :
    (∃ port, StandsFor tail port) ↔ ∀ digits, tail = ':' :: digits → Decimal.value digits ≤ 65535 := by
  rcases h with rfl | ⟨_ | ⟨d, ds⟩, hds, rfl⟩
  · exact iff_of_true ⟨none, standsFor_nil_iff.mpr rfl⟩ (by simp)
  · refine iff_of_true ⟨none, standsFor_colon_iff.mpr rfl⟩ ?_
    intro digits h
    obtain rfl : [] = digits := (List.cons.inj h).2
    exact Nat.zero_le 65535
  · have hnumeral : Decimal.IsNumeral (d :: ds) := ⟨List.cons_ne_nil d ds, hds⟩
    have hnumber : (∀ digits, ':' :: d :: ds = ':' :: digits → Decimal.value digits ≤ 65535) ↔
        Decimal.toUInt16? (d :: ds) ≠ none := by
      rw [ne_eq, hnumeral.toUInt16?_eq_none_iff, Nat.not_le]
      simp only [List.cons.injEq, true_and, forall_eq']
      exact Nat.lt_succ_iff.symm
    rw [hnumber, Option.ne_none_iff_exists']
    simp only [standsFor_cons_iff hds]
    constructor
    · rintro ⟨port, p, hp, -⟩
      exact ⟨p, hp⟩
    · rintro ⟨p, hp⟩
      exact ⟨some p, p, hp, rfl⟩

/-! ## What is read and what is refused -/

/-- A text is read as a host exactly if it is the name of the host and a port part that stands for its port. -/
theorem parse?_eq_some_iff {v : Text} {h : Host} :
    Field.host.parse? v = some h ↔
      ∃ tail, v = h.host ++ tail ∧ (Address.bracketed.accepts h.host = true ∨ IsRegisteredName h.host) ∧
        StandsFor tail h.port := by
  show (read v).value = some h ↔ _
  rw [read_iff_isHost, IsHost, isName_iff]
  constructor
  · rintro ⟨tail, hname, hport, hv⟩
    exact ⟨tail, hv, hname, hport⟩
  · rintro ⟨tail, hv, hname, hport⟩
    exact ⟨tail, hname, hport, hv⟩

/-- **Refusals.** A text is refused exactly if, however it is cut into a name and a port part, the number of the port
    needs more than 16 bits. -/
theorem parse?_eq_none_iff {v : Text} :
    Field.host.parse? v = none ↔
      ∀ name tail, v = name ++ tail → (Address.bracketed.accepts name = true ∨ IsRegisteredName name) →
        IsPortPart tail → ∃ digits, tail = ':' :: digits ∧ 65535 < Decimal.value digits := by
  constructor
  · intro hnone name tail hv hname htail
    by_contra hsmall
    have hfits : ∀ digits, tail = ':' :: digits → Decimal.value digits ≤ 65535 := by
      intro digits hdigits
      by_contra hlarge
      exact hsmall ⟨digits, hdigits, Nat.lt_of_not_le hlarge⟩
    obtain ⟨port, hport⟩ := (exists_standsFor_iff htail).mpr hfits
    have hsome : Field.host.parse? v = some ⟨name, port⟩ := parse?_eq_some_iff.mpr ⟨tail, hv, hname, hport⟩
    rw [hnone] at hsome
    cases hsome
  · intro hrefused
    rw [Option.eq_none_iff_forall_ne_some]
    intro h hsome
    obtain ⟨tail, hv, hname, hport⟩ := parse?_eq_some_iff.mp hsome
    obtain ⟨digits, hdigits, hlarge⟩ := hrefused h.host tail hv hname hport.isPortPart
    have hsmall := (exists_standsFor_iff hport.isPortPart).mp ⟨h.port, hport⟩ digits hdigits
    omega

end Host

/-- **Hosts.** A text is read as a host exactly if it is a name and a port part: the name is an address in square brackets
    or a registered name and is kept as it is, and the port is the number behind the colon, or none where no digits are.
    It is refused if it has no such parts, or if the number exceeds 65535. An IPv4 address with more of a registered
    name behind it is one name. -/
theorem parse?_host_iff (v : Text) :
    (∀ h : Host, Field.host.parse? v = some h ↔
        ∃ tail, v = h.host ++ tail ∧ (Address.bracketed.accepts h.host = true ∨ Host.IsRegisteredName h.host) ∧
          Host.StandsFor tail h.port) ∧
      (Field.host.parse? v = none ↔
        ∀ name tail, v = name ++ tail → (Address.bracketed.accepts name = true ∨ Host.IsRegisteredName name) →
          Host.IsPortPart tail → ∃ digits, tail = ':' :: digits ∧ 65535 < Decimal.value digits) ∧
      ∀ (quad more tail : Text) (port : Option UInt16), Address.IsIpv4 quad → Host.IsRegisteredName more →
        Host.StandsFor tail port → v = quad ++ more ++ tail → Field.host.parse? v = some ⟨quad ++ more, port⟩ := by
  refine ⟨fun _ => Host.parse?_eq_some_iff, Host.parse?_eq_none_iff, ?_⟩
  intro quad more tail port hquad hmore hport hv
  have hname : Host.IsRegisteredName (quad ++ more) := (Host.isRegisteredName_of_isIpv4 hquad).append hmore
  exact Host.parse?_eq_some_iff.mpr ⟨tail, hv, Or.inr hname, hport⟩

/-- A name that starts with an IPv4 address, and zeros in front of a port. The number of the other port is one too large,
    and its zeros do not help. -/
theorem parse?_host_leadingZeros :
    let quad : Text := "10.0.0.1".toList
    let more : Text := ".nip.io".toList
    let tail : Text := [':', '0', '0', '0', '8', '0']
    Address.IsIpv4 quad ∧ Host.IsRegisteredName more ∧ Host.StandsFor tail (some 80) ∧
      Field.host.parse? (quad ++ more ++ tail) = some ⟨quad ++ more, some 80⟩ ∧
      Field.host.parse? "a:0065536".toList = none := by
  intro quad more tail
  have hquad : Address.IsIpv4 quad := Address.isIpv4_of_derives (Rule.derives_of_accepts (by decide +kernel))
  have hmore : Host.IsRegisteredName more := Host.isRegisteredName_of_forall (by simp [more, Host.IsNameChar])
  have hport : Host.StandsFor tail (some 80) := (Host.standsFor_cons_iff (by simp)).mpr ⟨80, by decide, rfl⟩
  obtain ⟨-, -, hname⟩ := parse?_host_iff (quad ++ more ++ tail)
  have hrefused : Field.host.parse? "a:0065536".toList = none := by decide +kernel
  exact ⟨hquad, hmore, hport, hname quad more _ _ hquad hmore hport rfl, hrefused⟩

end HttpFields
