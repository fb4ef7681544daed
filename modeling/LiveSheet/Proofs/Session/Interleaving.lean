import LiveSheet.Proofs.Session.Draining

/-! # Interleaved edits

Edits may arrive while the cascades of earlier ones are still under way. What is written does
not depend on it: advancing a cascade writes nothing, and the cells that an edit writes are those
that its cell leads to by the new texts. Once the cascade has come to an end the values and the
edges do not depend on it either. -/

namespace LiveSheet

/-- The operations begin the edits in order, and otherwise they only advance the cascade. -/
inductive BeginsInOrder : List (Coord × String) → List Operation → Prop
  | done : BeginsInOrder [] []
  | begin {edits : List (Coord × String)} {operations : List Operation} (c : Coord)
      (raw : String) (h : BeginsInOrder edits operations) :
      BeginsInOrder ((c, raw) :: edits) (.beginEdit c raw :: operations)
  | advance {edits : List (Coord × String)} {operations : List Operation} (limit : Nat)
      (h : BeginsInOrder edits operations) :
      BeginsInOrder edits (.cascadeStep limit :: operations)

namespace Session

open Sheet

variable {s t : Session} {edits : List (Coord × String)} {operations : List Operation}

theorem Reachable.sameCells_cascadeStep (h : s.Reachable) (limit : Nat) :
    SameCells s.sheet (s.perform (.cascadeStep limit)).sheet :=
  (h.furnished.upkeep (upkeep_cascadeStep s.sheet limit)).2

/-- It makes no difference to what is written whether an edit is begun or made to its end. -/
theorem Reachable.sameCells_edit (h : s.Reachable) (ht : t.Reachable)
    (hsame : SameCells s.sheet t.sheet) (c : Coord) (raw : String) :
    SameCells (s.perform (.beginEdit c raw)).sheet (t.perform (.edit c raw)).sheet := by
  have hgrid := inBounds_congr hsame.settings_eq
  cases hc : s.sheet.inBounds c with
  | false =>
      have hs : s.perform (.beginEdit c raw) = s :=
        perform_eq_of_refused ⟨_, List.mem_singleton.mpr rfl, hc⟩
      have ht' : t.perform (.edit c raw) = t :=
        perform_eq_of_refused ⟨_, List.mem_singleton.mpr rfl, hgrid ▸ hc⟩
      rwa [hs, ht']
  | true =>
      have hs := beginEdit_of_inBounds hc raw
      have ht' := beginEdit_of_inBounds (hgrid ▸ hc) raw
      have hbegun := h.coherent.sheet.sameCells_beginEdit ht.coherent.sheet h.furnished
        ht.furnished hsame hs ht'
      have hfurnished := (ht.coherent.sheet.revises_beginEdit ht.furnished ht').furnished
      simp only [Session.perform, Sheet.edit, hs, ht']
      exact hbegun.trans (hfurnished.upkeep (upkeep_cascadeStep _ noLimit)).2

/-- However the edits are interleaved with the cascade, the same cells are written as one edit
after the other. -/
theorem Reachable.sameCells_performAll (h : s.Reachable) (ht : t.Reachable)
    (hsame : SameCells s.sheet t.sheet) (hoperations : BeginsInOrder edits operations) :
    SameCells (s.performAll operations).sheet (t.performAll (eachEdit edits)).sheet := by
  -- The second run waits while the first one only advances its cascade.
  induction hoperations generalizing s t with
  | done => exact hsame
  | begin c raw _ ih => exact ih (h.perform _) (ht.perform _) (h.sameCells_edit ht hsame c raw)
  | advance limit _ ih =>
      exact ih (h.perform _) ht ((h.sameCells_cascadeStep limit).symm.trans hsame)

theorem Reachable.sameCells_cascadeSteps (h : s.Reachable) (limits : List Nat) :
    SameCells s.sheet (s.performAll (cascadeSteps limits)).sheet := by
  induction limits generalizing s with
  | nil => exact .refl s.sheet
  | cons limit rest ih =>
      exact (h.sameCells_cascadeStep limit).trans (ih (h.perform (.cascadeStep limit)))

theorem Reachable.history_append_cascadeSteps (h : s.Reachable) (operations : List Operation)
    (limits : List Nat) :
    s.history (operations ++ cascadeSteps limits) = s.history operations := by
  rw [h.history_eq, h.history_eq, List.flatMap_append, cascadeSteps, List.flatMap_map]
  simp [Operation.edits]

/-- Whatever way edits are interleaved with the cascade, it can be brought to its end, and unless
the formulas then have a cycle, all records and edges are those that one edit after the other
leaves. -/
theorem alike_of_interleaving (h : s.Reachable) (hoperations : BeginsInOrder edits operations) :
    (∀ limit, 0 < limit → ∃ n n',
      (s.performAll (operations ++ cascadeSteps (.replicate n limit))).sheet.cascadePending =
          false ∧
        (s.performAll (eachEdit edits ++ cascadeSteps (.replicate n' limit))).sheet.cascadePending =
          false) ∧
      ∀ limits limits',
        let t := s.performAll (operations ++ cascadeSteps limits)
        let t' := s.performAll (eachEdit edits ++ cascadeSteps limits')
        t.sheet.cascadePending = false → t'.sheet.cascadePending = false →
          (∀ c, ¬t.sheet.written.OnCycle c) → Alike t.sheet t'.sheet := by
  have hreach := h.performAll operations
  have hreach' := h.performAll (eachEdit edits)
  simp only [performAll_append]
  constructor
  · intro limit hlimit
    obtain ⟨n, hn⟩ := hreach.exists_drained hlimit
    obtain ⟨n', hn'⟩ := hreach'.exists_drained hlimit
    exact ⟨n, n', hn, hn'⟩
  · intro limits limits' hpending hpending' hacyclic
    have hsame := (hreach.sameCells_cascadeSteps limits).symm.trans
      ((h.sameCells_performAll h (.refl s.sheet) hoperations).trans
        (hreach'.sameCells_cascadeSteps limits'))
    have hfresh := (hreach.performAll (cascadeSteps limits)).upToDate hpending
    have hfresh' := (hreach'.performAll (cascadeSteps limits')).upToDate hpending'
    exact hfresh.alike hfresh' (inBounds_congr hsame.settings_eq) hsame.text?_eq hacyclic
      hsame.contains_iff

/-- A formula, and its operand while the cascade is under way. -/
theorem alike_of_interleaved_operand :
    ∃ n n',
      let t := small.performAll ([.beginEdit ⟨0, 0⟩ "=B1+1", .cascadeStep 1,
        .beginEdit ⟨0, 1⟩ "2"] ++ cascadeSteps (.replicate n 1))
      let t' := small.performAll
        (eachEdit [(⟨0, 0⟩, "=B1+1"), (⟨0, 1⟩, "2")] ++ cascadeSteps (.replicate n' 1))
      t.sheet.cascadePending = false ∧ t'.sheet.cascadePending = false ∧
        Alike t.sheet t'.sheet := by
  have hoperations : BeginsInOrder [(⟨0, 0⟩, "=B1+1"), (⟨0, 1⟩, "2")]
      [.beginEdit ⟨0, 0⟩ "=B1+1", .cascadeStep 1, .beginEdit ⟨0, 1⟩ "2"] :=
    .begin _ _ (.advance 1 (.begin _ _ .done))
  obtain ⟨hdrained, halike⟩ := alike_of_interleaving reachable_small hoperations
  obtain ⟨n, n', hn, hn'⟩ := hdrained 1 Nat.one_pos
  refine ⟨n, n', hn, hn', halike _ _ hn hn' fun c => ?_⟩
  -- The formula ranks above all other cells.
  refine not_onCycle_of_rank start_small _ (fun c => if c = ⟨0, 0⟩ then 1 else 0) ?_ ?_ c
  · rw [reachable_small.history_append_cascadeSteps, reachable_small.history_eq]
    decide +kernel
  · intro c raw hraw
    cases hraw

end Session

end LiveSheet
