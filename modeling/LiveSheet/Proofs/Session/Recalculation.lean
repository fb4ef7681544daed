import LiveSheet.Proofs.Session.Draining
import LiveSheet.Proofs.Sheet.Accounts
import LiveSheet.Proofs.Sheet.Replay

/-! # Recalculating twice

A recalculation computes every record and creates none, so the next one starts from the same
texts. It finds other values than the first one did, and other results remembered, but no value
counts as long as its record is stale, and so it does the same again. -/

namespace LiveSheet

namespace Sheet

variable {s s' : Sheet} {apart : Int}

theorem SameCells.raw?_eq (h : SameCells s s') (c : Coord) :
    s'.store.raw? c = s.store.raw? c := by
  by_cases hc : s.store.contains c = true
  · rw [raw?_of_contains hc, raw?_of_contains ((h.contains_iff c).mpr hc), h.text?_eq]
  · have hnone := Store.get?_eq_none_of_not_contains (mt (h.contains_iff c).mp hc)
    rw [(Store.raw?_eq_none_iff _ _).mpr hnone,
      (Store.raw?_eq_none_iff _ _).mpr (Store.get?_eq_none_of_not_contains hc)]

/-- Sheets that are up to date and alike in what counts are alike altogether. -/
theorem Twin.alike (h : Twin apart s s') (hs : s.UpToDate) (hs' : s'.UpToDate) :
    Alike s s' := by
  refine hs.coherent.alike hs'.coherent fun c => ?_
  cases hr : s.store.get? c with
  | none =>
      rw [← Store.raw?_eq_none_iff, h.raw?_eq]
      exact (Store.raw?_eq_none_iff _ _).mpr hr
  | some r =>
      have hraw := (h.raw?_eq c).trans ((Store.raw?_eq_some_iff _ _ _).mpr ⟨r, hr, rfl⟩)
      obtain ⟨r', hr', hsame⟩ := (Store.raw?_eq_some_iff _ _ _).mp hraw
      have hvalue := h.value_eq c (hs.coherent.current_of_not_stale hr (hs.fresh c))
      rw [Store.value_of_get? hr, Store.value_of_get? hr'] at hvalue
      rw [hr']
      cases r
      cases r'
      cases hsame
      cases hvalue
      rfl

theorem Coherent.upToDate_recalculateAll (h : s.Coherent) : s.recalculateAll.2.UpToDate :=
  ⟨h.recalculateAll.coherent, not_stale_recalculateAll h.sound.tidy h.sound.markAll⟩

namespace Furnished

theorem sameCells_recalculateAll (h : s.Furnished) : SameCells s s.recalculateAll.2 :=
  (h.upkeep (upkeep_recalculateAll s)).2

/-- A recalculation computes the records, each of them once. -/
theorem recalculateWork_exact (h : s.Furnished) :
    s.recalculateWork.Nodup ∧ (∀ c, c ∈ s.recalculateWork ↔ s.store.contains c = true) ∧
      s.recalculateAll.1.cellsRecomputed = {c | s.store.contains c = true}.ncard := by
  have haccounts := accounts_recalculateAll h.sound.tidy h.sound.markAll
  have hmem : ∀ c, c ∈ s.recalculateWork ↔ s.store.contains c = true := fun c =>
    (mem_recalculateWork_iff h.sound.tidy h.sound.markAll c).trans
      (h.sameCells_recalculateAll.contains_iff c)
  refine ⟨haccounts.nodup, hmem, ?_⟩
  rw [cellsRecomputed_recalculateAll, ← haccounts.ncard_eq]
  exact congrArg Set.ncard (Set.ext hmem)

end Furnished

end Sheet

namespace Session

open Sheet

variable {s : Session}

/-- A recalculation is a fixed point, whatever was pending and whether there are cycles or not.
It computes every record once, creates no record and leaves nothing stale; and if it is done once
more, no text, no value and no edge changes, and the report is the same. If there was no cycle
and nothing was pending, not even the first one changes anything. -/
theorem recalculateAll_fixed_point (h : s.Reachable) :
    let t := s.sheet.recalculateAll.2
    (s.sheet.recalculateWork.Nodup ∧
        (∀ c, c ∈ s.sheet.recalculateWork ↔ s.sheet.store.contains c = true) ∧
        s.sheet.recalculateAll.1.cellsRecomputed =
          {c | s.sheet.store.contains c = true}.ncard) ∧
      (∀ c, t.store.contains c = true ↔ s.sheet.store.contains c = true) ∧
      (∀ c, c ∉ t.stale) ∧
      Alike t t.recalculateAll.2 ∧
      t.recalculateAll.1.cellsRecomputed = s.sheet.recalculateAll.1.cellsRecomputed ∧
      t.recalculateAll.1.cyclesDetected = s.sheet.recalculateAll.1.cyclesDetected ∧
      (s.sheet.cascadePending = false → (∀ c, ¬s.sheet.written.OnCycle c) →
        Alike s.sheet t) := by
  intro t
  have hcoherent := h.coherent.sheet
  have hsame : SameCells s.sheet t := h.furnished.sameCells_recalculateAll
  have hafter : t.UpToDate := hcoherent.upToDate_recalculateAll
  have hfurnished : t.Furnished := (h.furnished.upkeep (upkeep_recalculateAll _)).1
  have htwin : Twin (t.counters.cycles - s.sheet.counters.cycles) t t.recalculateAll.2 :=
    hcoherent.sound.twin_recalculateAll hfurnished.sound hsame.settings_eq hsame.template_eq
      hsame.raw?_eq
  have hexact := h.furnished.recalculateWork_exact
  refine ⟨hexact, hsame.contains_iff, hafter.fresh,
    htwin.alike hafter hafter.coherent.upToDate_recalculateAll, ?_, ?_, ?_⟩
  · rw [hexact.2.2, hfurnished.recalculateWork_exact.2.2]
    exact congrArg Set.ncard (Set.ext hsame.contains_iff)
  · change t.recalculateAll.2.counters.cycles - t.counters.cycles =
      t.counters.cycles - s.sheet.counters.cycles
    have hcycles := htwin.cycles_eq
    omega
  · intro hpending hacyclic
    exact (hcoherent.upToDate hpending).alike hafter (inBounds_congr hsame.settings_eq)
      hsame.text?_eq hacyclic hsame.contains_iff

/-- A formula that refers to itself is recalculated, and the second time nothing changes. -/
theorem recalculateAll_self_reference :
    let s := small.perform (.beginEdit ⟨0, 0⟩ "=A1+1")
    s.Reachable ∧ ⟨0, 0⟩ ∈ s.sheet.recalculateWork ∧
      Alike s.sheet.recalculateAll.2 s.sheet.recalculateAll.2.recalculateAll.2 := by
  intro s
  have hreach : s.Reachable := reachable_small.perform _
  have hbegins : small.sheet.Begins ⟨0, 0⟩ "=A1+1" s.sheet := reachable_small.begins _ _ rfl
  clear_value s
  obtain ⟨⟨-, hmem, -⟩, -, -, halike, -⟩ := recalculateAll_fixed_point hreach
  exact ⟨hreach, (hmem ⟨0, 0⟩).mpr hbegins.current.contains, halike⟩

end Session

end LiveSheet
