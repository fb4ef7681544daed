import LiveSheet.Proofs.Session.History
import LiveSheet.Proofs.Sheet.Agreement
import LiveSheet.Proofs.Sheet.Draining

/-! # Draining the cascade of a session

Steps of any size bring the cascade to its end, and an edit does so at once: no grid that a
session can be opened with has as many cells as an edit may visit. -/

namespace LiveSheet

/-- Steps of the cascade with the given limits. -/
def cascadeSteps (limits : List Nat) : List Operation :=
  limits.map .cascadeStep

/-- The settings that a sheet can work with. -/
theorem Settings.validate_eq_ok_iff {s : Settings} : s.validate = .ok () ↔
    (0 < s.totalRows ∧ s.totalRows ≤ maxRows) ∧ 0 < s.totalCols ∧
      (s.rowHeight.isFinite && 0 < s.rowHeight) = true ∧ 0 < s.batchSize ∧
      0 < s.cascadeBatchSize := by
  simp only [validate, ite_eq_iff, reduceCtorEq, and_false, false_or, and_true, not_or,
    Nat.not_lt, ← Nat.pos_iff_ne_zero, Bool.not_eq_true', Bool.not_eq_false]

namespace Session

open Sheet

variable {s : Session}

theorem Reachable.upToDate (h : s.Reachable) (hpending : s.sheet.cascadePending = false) :
    s.sheet.UpToDate :=
  h.coherent.sheet.upToDate hpending

/-- The cascade comes to an end, however little is done at a time. -/
theorem Reachable.exists_drained (h : s.Reachable) {limit : Nat} (hlimit : 0 < limit) :
    ∃ n, (s.performAll (cascadeSteps (List.replicate n limit))).sheet.cascadePending = false := by
  -- Every step that leaves something to do leaves fewer cells to visit.
  induction hcard : s.sheet.unvisited.card using Nat.strong_induction_on generalizing s with
  | _ card ih =>
      rcases h.furnished.card_unvisited_cascadeStep_le limit with hdone | hle
      · exact ⟨1, hdone⟩
      · have hlt : (s.perform (.cascadeStep limit)).sheet.unvisited.card < card := by
          change (s.sheet.cascadeStep limit).2.unvisited.card < card
          omega
        obtain ⟨n, hn⟩ := ih _ hlt (h.perform (.cascadeStep limit)) rfl
        exact ⟨n + 1, hn⟩

theorem Reachable.validate_eq_ok (h : s.Reachable) : s.sheet.settings.validate = .ok () := by
  induction h with
  | start h =>
      obtain ⟨hvalid, hsheet, -⟩ := start_eq_ok h
      rw [hsheet]
      exact hvalid
  | perform h operation ih =>
      rw [(h.coherent.revises_perform h.furnished operation).settings_eq]
      exact ih

/-- A grid whose columns can be counted has fewer cells than any cascade may visit. -/
theorem Reachable.size_lt_noLimit (h : s.Reachable)
    (hcols : s.sheet.settings.totalCols ≤ Settings.maxCount) :
    s.sheet.settings.totalRows * s.sheet.settings.totalCols < noLimit := by
  obtain ⟨⟨-, hrows⟩, -⟩ := Settings.validate_eq_ok_iff.mp h.validate_eq_ok
  exact Nat.lt_of_le_of_lt (Nat.mul_le_mul hrows hcols) (by decide)

/-- An edit of a cell of the grid leaves nothing to propagate. -/
theorem Reachable.cascadePending_edit (h : s.Reachable)
    (hcols : s.sheet.settings.totalCols ≤ Settings.maxCount) {c : Coord}
    (hc : s.sheet.inBounds c = true) (raw : String) :
    (s.perform (.edit c raw)).sheet.cascadePending = false := by
  cases hedit : s.sheet.edit c raw with
  | error e =>
      simp only [Sheet.edit, beginEdit_of_inBounds hc raw] at hedit
      cases hedit
  | ok result =>
      simp only [Session.perform, hedit]
      exact h.coherent.sheet.cascadePending_edit h.furnished (h.size_lt_noLimit hcols) hedit

theorem cascadePending_of_last_edit {settings : Settings} {template : Template}
    (h : Session.start settings template = .ok s) (hcols : settings.totalCols ≤ Settings.maxCount)
    {c : Coord} (hc : c.inGrid settings.totalRows settings.totalCols = true)
    (operations : List Operation) (raw : String) :
    (s.performAll (operations ++ [.edit c raw])).sheet.cascadePending = false := by
  have hsettings := (settings_performAll h operations).1
  have hreach := (Reachable.start h).performAll operations
  rw [performAll_append]
  refine hreach.cascadePending_edit (hsettings ▸ hcols) ?_ raw
  rwa [inBounds, hsettings]

end Session

end LiveSheet
