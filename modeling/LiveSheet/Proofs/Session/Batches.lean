import LiveSheet.Proofs.Session.Draining
import LiveSheet.Proofs.Sheet.Batches
import LiveSheet.Session.Run

/-! # Cascades in batches

An edit may be propagated at once, in steps of any sizes, or by a run that advances the cascade
batch by batch and lets somebody look at the session in between. What is looked at does not
change, and neither does what the sheet holds in the end. -/

namespace LiveSheet

namespace Sheet

/-- Both sheets hold and know the same; what their cascades have visited may differ. -/
structure SameOutcome (s s' : Sheet) : Prop where
  store_eq : s'.store = s.store
  graph_eq : s'.graph = s.graph
  memo_eq : s'.memo = s.memo
  stale_eq : s'.stale = s.stale
  counters_eq : s'.counters = s.counters

theorem sameOutcome_closeCascade (s : Sheet) : SameOutcome s.closeCascade s := by
  unfold closeCascade
  split <;> exact ⟨rfl, rfl, rfl, rfl, rfl⟩

/-- All steps that leave nothing to do agree with each other. -/
theorem sameOutcome_of_drained {s : Sheet} {limits : List Nat} {limit : Nat}
    (hlimits : (s.cascadeAll limits).cascadePending = false)
    (hlimit : (s.cascadeStep limit).2.cascadePending = false) :
    SameOutcome (s.cascadeStep limit).2 (s.cascadeAll limits) := by
  rw [← closeCascade_of_drained hlimits hlimit]
  exact sameOutcome_closeCascade _

end Sheet

namespace Session

open Sheet

variable {α : Type} {s : Session}

/-- Somebody who only looks at the session. -/
def Intervention.Idle (intervene : Intervention α) : Prop :=
  ∀ s, (intervene s).2 = s

/-- Batches that nobody interferes with advance the cascade to its end. -/
theorem cascadeOnto_of_idle {interventions : List (Intervention α)}
    (hidle : ∀ intervene ∈ interventions, intervene.Idle) (log : List (Option α)) (budget : Nat)
    (h : s.sheet.Furnished) (hsize : 0 < s.sheet.settings.cascadeBatchSize)
    (hbudget : s.sheet.cascadePending = true → s.sheet.unvisited.card < budget) :
    ∃ log' limits, cascadeOnto log interventions budget s =
        (log', { s with sheet := s.sheet.cascadeAll limits }) ∧
      (s.sheet.cascadeAll limits).cascadePending = false := by
  -- A batch leaves nothing to do, or fewer cells to visit.
  have hbatch : ∀ {s : Session}, s.sheet.Furnished → 0 < s.sheet.settings.cascadeBatchSize →
      s.cascadeBatch.sheet.Furnished ∧ 0 < s.cascadeBatch.sheet.settings.cascadeBatchSize ∧
        (s.cascadeBatch.sheet.cascadePending = true →
          s.cascadeBatch.sheet.unvisited.card < s.sheet.unvisited.card) := by
    intro s h hsize
    obtain ⟨hfurnished, hsame⟩ := h.upkeep
      (upkeep_cascadeStep s.sheet s.sheet.settings.cascadeBatchSize)
    refine ⟨hfurnished, hsame.settings_eq ▸ hsize, fun hpending => ?_⟩
    have hle := (h.card_unvisited_cascadeStep_le s.sheet.settings.cascadeBatchSize).resolve_left
      fun hdone => Bool.noConfusion (hdone.symm.trans hpending)
    change (s.sheet.cascadeStep s.sheet.settings.cascadeBatchSize).2.unvisited.card < _
    omega
  fun_induction cascadeOnto log interventions budget s with
  | case1 log s hpending intervene rest budget result t hresult ih =>
      obtain ⟨hfurnished, hsize', hlt⟩ := hbatch h hsize
      have ht : t = s.cascadeBatch := by
        rw [← hidle intervene List.mem_cons_self s.cascadeBatch, hresult]
      subst ht
      obtain ⟨log', limits, hrun, hdone⟩ := ih
        (fun i hi => hidle i (List.mem_cons_of_mem _ hi)) hfurnished hsize'
        fun hpending' => Nat.lt_trans (hlt hpending') (hbudget hpending)
      exact ⟨log', s.sheet.settings.cascadeBatchSize :: limits, hrun, hdone⟩
  | case2 log s hpending => exact (Nat.not_lt_zero _ (hbudget hpending)).elim
  | case3 log s hpending budget ih =>
      obtain ⟨hfurnished, hsize', hlt⟩ := hbatch h hsize
      obtain ⟨log', limits, hrun, hdone⟩ := ih hidle hfurnished hsize' fun hpending' => by
        have hlt' := hlt hpending'
        have hbudget' := hbudget hpending
        omega
      exact ⟨log', s.sheet.settings.cascadeBatchSize :: limits, hrun, hdone⟩
  | case4 log interventions budget s hpending =>
      exact ⟨log.reverse, [], rfl, Bool.not_eq_true _ ▸ hpending⟩

/-- The size of the batches does not matter to a cascade. Two steps leave the sheet that one step
with both limits leaves, and visit as many cells. So once an edit has been begun, steps that leave
nothing to do lead to what the edit at once leads to, whatever the sheet was, if their limits do
not add up to more than any step may have. In a session that can be reached there is no such
bound; steps that are not empty do leave nothing to do in the end, and a run that nobody
interferes with comes to the same. The columns are few enough to be counted. -/
theorem batches_agree (h : s.Reachable)
    (hcols : s.sheet.settings.totalCols ≤ Settings.maxCount) :
    (∀ (t : Sheet) (a b : Nat),
      ((t.cascadeStep a).2.cascadeStep b).2 = (t.cascadeStep (a + b)).2 ∧
        (t.cascadeStep a).1 + ((t.cascadeStep a).2.cascadeStep b).1 =
          (t.cascadeStep (a + b)).1) ∧
      (∀ (s begun : Sheet) c raw, s.beginEdit c raw = .ok begun →
        ∃ report t, s.edit c raw = .ok (report, t) ∧
          ∀ limits : List Nat, limits.sum ≤ noLimit →
            (begun.cascadeAll limits).cascadePending = false →
              SameOutcome t (begun.cascadeAll limits)) ∧
      ∀ c raw, s.sheet.inBounds c = true →
        ∃ begun report t, s.sheet.beginEdit c raw = .ok begun ∧
          s.sheet.edit c raw = .ok (report, t) ∧
          (∀ limits, (begun.cascadeAll limits).cascadePending = false →
            SameOutcome t (begun.cascadeAll limits)) ∧
          (∀ limits : List Nat, (∀ limit ∈ limits, 0 < limit) →
            s.sheet.settings.totalRows * s.sheet.settings.totalCols < limits.length →
              (begun.cascadeAll limits).cascadePending = false) ∧
          ∀ (α : Type) (interventions : List (Intervention α)),
            (∀ intervene ∈ interventions, intervene.Idle) →
              ∃ log sheet, s.runCascade c raw interventions = .ok (log, { s with sheet }) ∧
                sheet.cascadePending = false ∧ SameOutcome t sheet := by
  refine ⟨cascadeStep_add, fun s begun c raw hbegin => ?_, fun c raw hc => ?_⟩
  · exact ⟨_, _, edit_of_beginEdit hbegin, fun limits hsum hlimits =>
      sameOutcome_of_drained hlimits (cascadePending_cascadeStep_of_sum_le hsum hlimits)⟩
  have hbegin := beginEdit_of_inBounds hc raw
  have hrevises := h.coherent.sheet.revises_beginEdit h.furnished hbegin
  have hsettings := hrevises.settings_eq
  have hfurnished := hrevises.furnished
  generalize ((s.sheet.overwrite c raw).evaluate c).restart c = begun at *
  have hsize := h.size_lt_noLimit hcols
  rw [← hsettings] at hsize
  have hlimit := hfurnished.cascadePending_cascadeStep hsize
  have hsame : ∀ limits, (begun.cascadeAll limits).cascadePending = false →
      SameOutcome (begun.cascadeStep noLimit).2 (begun.cascadeAll limits) :=
    fun _ hlimits => sameOutcome_of_drained hlimits hlimit
  refine ⟨begun, _, _, hbegin, edit_of_beginEdit hbegin, hsame, ?_, ?_⟩
  · intro limits hpos hlength
    exact hfurnished.cascadePending_cascadeAll hpos (hsettings ▸ hlength)
  · intro α interventions hidle
    obtain ⟨-, -, -, -, hbatch⟩ := Settings.validate_eq_ok_iff.mp h.validate_eq_ok
    rw [← hsettings] at hbatch
    obtain ⟨log, limits, hrun, hdone⟩ := cascadeOnto_of_idle (s := { s with sheet := begun })
      hidle [] (begun.cellBound + 1) hfurnished hbatch
      fun _ => Nat.lt_succ_of_le (begun.card_unvisited_le.trans (Nat.le_add_right _ _))
    refine ⟨log, begun.cascadeAll limits, ?_, hdone, hsame limits hdone⟩
    simp only [runCascade, hbegin, hrun]

/-- A cell of the small session is edited in steps of one cell each. -/
theorem batches_agree_small :
    ∃ begun report t, small.sheet.beginEdit ⟨0, 0⟩ "=B1" = .ok begun ∧
      small.sheet.edit ⟨0, 0⟩ "=B1" = .ok (report, t) ∧
      SameOutcome t (begun.cascadeAll (List.replicate 5 1)) := by
  obtain ⟨begun, report, t, hbegin, hedit, hsame, hsteps, -⟩ :=
    (batches_agree reachable_small (by decide)).2.2 ⟨0, 0⟩ "=B1" (by decide)
  refine ⟨begun, report, t, hbegin, hedit, hsame _ (hsteps _ ?_ (by decide))⟩
  intro limit hlimit
  rw [List.eq_of_mem_replicate hlimit]
  exact Nat.one_pos

end Session

end LiveSheet
