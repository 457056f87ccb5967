import HttpFields.Proofs.Host.Name
import HttpFields.Proofs.Host.Reading

/-!
# `HttpFields.Proofs.Host.RoundTrip` — a host that was written is read back

The name of a host is kept as it was written, so all that can be lost is where it ends and what its port was. Neither is:
the rule for a name stops at the colon of the port, and a port is written as its numeral, whatever zeros stood in front
of it when it was read.

* `IsHost`, `read_iff_isHost` — a host as it is written: a name, and what stands for its port.
* `isHost_write` — what a host is written as.
* `parse_write_host` — a host is read back exactly if the rule for names matches its name in full.
-/

namespace HttpFields

namespace Host

open Rule

/-! ## What is read -/

/-- The text stands for the host: its name, and behind it what stands for its port. -/
def IsHost (v : Text) (h : Host) : Prop := ∃ rest, IsName h.host ∧ StandsFor rest h.port ∧ v = h.host ++ rest

/-- What stands for a port, or for none, starts with a colon if it is not empty. -/
theorem StandsFor.head {rest : Text} {port : Option UInt16} (h : StandsFor rest port) : ∀ c ∈ rest.head?, c = ':' := by
  rcases h.isPortPart with rfl | ⟨ds, -, rfl⟩
  · exact nofun
  · rintro c ⟨⟩
    rfl

/-- A text is read as the host that it stands for. -/
theorem read_iff_isHost {v : Text} {h : Host} : (read v).value = some h ↔ IsHost v h := by
  rw [read_eq_some_iff]
  constructor
  · rintro ⟨m, hm, hhost, hport⟩
    refine ⟨m.rest, ?_, hport, ?_⟩
    · rw [hhost]
      exact isName_of_parse? hm
    · rw [hhost, taken_append_rest hm]
  · rintro ⟨rest, hname, hport, rfl⟩
    exact ⟨⟨h.host, rest⟩, takes_name hname hport.head, rfl, hport⟩

/-- The name of a host that was read is matched in full. -/
theorem IsHost.accepts_name {v : Text} {h : Host} (hv : IsHost v h) : name.accepts h.host = true := by
  obtain ⟨rest, hname, -, -⟩ := hv
  exact accepts_name_iff.mpr hname

/-! ## What is written -/

/-- The numeral of a port stands for it. -/
theorem standsFor_digits (port : UInt16) : StandsFor (':' :: Decimal.digits port.toNat) (some port) := by
  refine Or.inr ⟨Decimal.digits port.toNat, port, Decimal.digits_ne_nil _, ?_, rfl, Decimal.value_digits _, rfl⟩
  intro c hc
  exact Decimal.isDigit_of_mem_digits hc

/-- **What is written stands for what was to be written**, if the rule for names matches the name. -/
theorem isHost_write {h : Host} (haccepts : name.accepts h.host = true) : IsHost (write h) h := by
  have hname : IsName h.host := accepts_name_iff.mp haccepts
  obtain ⟨host, port⟩ := h
  cases port with
  | none => exact ⟨[], hname, standsFor_nil_iff.mpr rfl, (List.append_nil host).symm⟩
  | some port => exact ⟨':' :: Decimal.digits port.toNat, hname, standsFor_digits port, rfl⟩

end Host

/-- **Hosts are read back.** A host that was written is read back exactly if the rule for names matches its name in full.
    Each host that is read has such a name, so it is read back once it is written. A colon behind such a name, and
    whatever stands behind the colon, does not change where the rule stops. -/
theorem parse_write_host :
    (∀ h : Host, Field.host.parse h.write = .ok h ↔ Host.name.accepts h.host = true) ∧
      (∀ (v : Text) (h : Host), Field.host.parse v = .ok h → Host.name.accepts h.host = true) ∧
      (∀ (v : Text) (h : Host), Field.host.parse v = .ok h → Field.host.parse h.write = .ok h) ∧
      ∀ host port : Text, Host.name.accepts host = true →
        Host.name.parse? (host ++ ':' :: port) = some ⟨host, ':' :: port⟩ := by
  have haccepts : ∀ (v : Text) (h : Host), Host.IsHost v h → Host.name.accepts h.host = true :=
    fun _ _ hv => hv.accepts_name
  have hwrite : ∀ h : Host, Host.name.accepts h.host = true → Host.IsHost h.write h :=
    fun _ hname => Host.isHost_write hname
  obtain ⟨hiff, hname, hagain⟩ :=
    Field.host.parse_write_of_stands (fun _ _ => Host.read_iff_isHost) haccepts hwrite
  refine ⟨hiff, hname, hagain, ?_⟩
  intro host port hhost
  apply Host.takes_name (Host.accepts_name_iff.mp hhost)
  intro c hc
  cases hc
  rfl

/-- Zeros in front of a port are lost, and the host is the same. The colons of a bracketed address are its own, and those
    of an address without brackets are not. -/
theorem parse_write_host_bracketed :
    let host : Host := ⟨"[fe80::1:2]".toList, some 80⟩
    Field.host.parse "[fe80::1:2]:00080".toList = .ok host ∧ Host.name.accepts host.host = true ∧
      Field.host.parse host.write = .ok host ∧
      Host.name.parse? (host.host ++ ':' :: "00080".toList) = some ⟨host.host, ':' :: "00080".toList⟩ ∧
      Field.host.parse (Host.write ⟨"fe80::1:2".toList, some 80⟩) ≠ .ok ⟨"fe80::1:2".toList, some 80⟩ := by
  intro host
  have hread : Field.host.parse "[fe80::1:2]:00080".toList = .ok host :=
    Field.parse_eq_ok_iff.mpr (by decide +kernel)
  have hrefused : Host.name.accepts "fe80::1:2".toList ≠ true := by decide +kernel
  obtain ⟨hiff, hname, hagain, hstops⟩ := parse_write_host
  have haccepts : Host.name.accepts host.host = true := hname _ host hread
  refine ⟨hread, haccepts, hagain _ host hread, hstops host.host "00080".toList haccepts, ?_⟩
  intro h
  exact hrefused ((hiff ⟨"fe80::1:2".toList, some 80⟩).mp h)

end HttpFields
