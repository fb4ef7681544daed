import LiveSheet.Proofs.Session.Runs

/-! # Values of reachable sessions

What a cell holds follows from the texts alone once the cell is not stale: neither the order of
the operations before nor where a cascade has got to can be seen in it. -/

namespace LiveSheet.Session

variable {s : Session} {c : Coord} {r : Record}

/-- A record that is not stale and does not lead to a cycle holds the value that the texts give
to its cell, and no other value. -/
theorem denotes_iff_value_eq (h : s.Reachable) (hr : s.sheet.store.get? c = some r)
    (hfresh : c ∉ s.sheet.stale) (hacyclic : ¬s.sheet.written.LeadsToCycle c)
    (v : CellValue) : s.sheet.text?.Denotes s.sheet.inBounds c v ↔ r.value = v := by
  obtain ⟨hfits, hcycle⟩ := h.coherent.sheet.fits hr hfresh
  have hdenotes := hfits.denotes (mt hcycle.mpr hacyclic)
  constructor
  · exact hdenotes.unique
  · rintro rfl
    exact hdenotes

/-- A formula over a blank cell. -/
theorem value_eq_of_formula_over_blank :
    let s := small.perform (.beginEdit ⟨0, 1⟩ "=A1*2+1")
    s.Reachable ∧ ∃ r, s.sheet.store.get? ⟨0, 1⟩ = some r ∧ ⟨0, 1⟩ ∉ s.sheet.stale ∧
      ¬s.sheet.written.LeadsToCycle ⟨0, 1⟩ ∧ r.value = .number 1 := by
  intro s
  have hreach : s.Reachable := reachable_small.perform _
  have hbegins : small.sheet.Begins ⟨0, 1⟩ "=A1*2+1" s.sheet := reachable_small.begins _ _ rfl
  have hreferences : (Formula.ofRaw "=A1*2+1").references = [⟨0, 0⟩] := by decide +kernel
  clear_value s
  have htext : s.sheet.text? ⟨0, 1⟩ = some "=A1*2+1" := hbegins.text?_eq ⟨0, 1⟩
  have hblank : s.sheet.text? ⟨0, 0⟩ = none :=
    (hbegins.text?_eq ⟨0, 0⟩).trans (text?_small ⟨0, 0⟩)
  obtain ⟨r, hr, -, hfresh⟩ := hbegins.exists_record
  have hcycle := (hreach.coherent.sheet.fits hr hfresh).2
  have hacyclic : ¬s.sheet.text?.LeadsToCycle ⟨0, 1⟩ := by
    intro hleads
    obtain ⟨p, hp, hp'⟩ := hleads.exists_refers
    rw [Writing.refers_iff htext rfl, hreferences, List.mem_singleton] at hp
    exact Writing.not_leadsToCycle_of_references (Writing.references_of_blank hblank) (hp ▸ hp')
  have hdenotes : s.sheet.text?.Denotes s.sheet.inBounds ⟨0, 1⟩ (.number 1) := by
    have hvalue : (Formula.ofRaw "=A1*2+1").valueBy
        (Formula.operandIn small.sheet.inBounds fun _ => .empty) = .number 1 := by
      decide +kernel
    rw [← hvalue, ← Sheet.inBounds_congr hbegins.keeps.settings_eq]
    refine .formula htext rfl fun p hp _ => ?_
    rw [hreferences, List.mem_singleton] at hp
    exact hp ▸ .blank hblank
  have hacyclic' := mt hcycle.mp hacyclic
  exact ⟨hreach, r, hr, hfresh, hacyclic',
    (denotes_iff_value_eq hreach hr hfresh hacyclic' _).mp hdenotes⟩

/-- Cycles do not leak and do not hide. A record that is not stale holds an error if it leads to
a cycle, and holds circularity only if it does. Without a cycle, and with no cascade pending, no
record holds circularity. -/
theorem cycle_containment (h : s.Reachable) :
    (∀ c r, s.sheet.store.get? c = some r → c ∉ s.sheet.stale →
      (s.sheet.written.LeadsToCycle c → r.value.isError = true) ∧
        (r.value = .error .circular → s.sheet.written.LeadsToCycle c)) ∧
      ((∀ c, ¬s.sheet.written.OnCycle c) → s.sheet.cascadePending = false →
        ∀ c r, s.sheet.store.get? c = some r → r.value ≠ .error .circular) := by
  have hcoherent := h.coherent.sheet
  have hcircular : ∀ c r, s.sheet.store.get? c = some r → c ∉ s.sheet.stale →
      r.value = .error .circular → s.sheet.written.LeadsToCycle c := by
    intro c r hr hfresh hvalue
    obtain ⟨hfits, hcycle⟩ := hcoherent.fits hr hfresh
    rw [hvalue] at hfits
    exact hcycle.mpr hfits.leadsToCycle
  refine ⟨fun c r hr hfresh => ⟨fun hleads => ?_, hcircular c r hr hfresh⟩, ?_⟩
  · obtain ⟨hfits, hcycle⟩ := hcoherent.fits hr hfresh
    exact hfits.isError (hcycle.mp hleads)
  · intro hacyclic hpending c r hr hvalue
    have hfresh : c ∉ s.sheet.stale := hcoherent.not_stale_of_pending hpending
    obtain ⟨d, -, hd⟩ := hcircular c r hr hfresh hvalue
    exact hacyclic d hd

/-- A formula that refers to itself. -/
theorem isError_of_self_reference :
    let s := small.perform (.beginEdit ⟨0, 0⟩ "=A1+1")
    s.Reachable ∧ ∃ r, s.sheet.store.get? ⟨0, 0⟩ = some r ∧
      s.sheet.written.LeadsToCycle ⟨0, 0⟩ ∧ r.value.isError = true := by
  intro s
  have hreach : s.Reachable := reachable_small.perform _
  have hbegins : small.sheet.Begins ⟨0, 0⟩ "=A1+1" s.sheet := reachable_small.begins _ _ rfl
  have hreferences : (Formula.ofRaw "=A1+1").references = [⟨0, 0⟩] := by decide +kernel
  clear_value s
  obtain ⟨r, hr, -, hfresh⟩ := hbegins.exists_record
  have hrefers : s.sheet.text?.Refers ⟨0, 0⟩ ⟨0, 0⟩ := by
    rw [Writing.refers_iff (hbegins.text?_eq ⟨0, 0⟩) rfl, hreferences]
    exact List.mem_singleton.mpr rfl
  have hleads : s.sheet.written.LeadsToCycle ⟨0, 0⟩ :=
    (hreach.coherent.sheet.fits hr hfresh).2.mpr (Writing.OnCycle.leadsToCycle (.single hrefers))
  exact ⟨hreach, r, hr, hleads, ((cycle_containment hreach).1 _ r hr hfresh).1 hleads⟩

end LiveSheet.Session
