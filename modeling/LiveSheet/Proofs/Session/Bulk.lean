import LiveSheet.Proofs.Session.Draining

/-! # Edits applied together

Many edits can be applied together, which writes all texts and then recalculates everything, or
one after the other, each with its own cascade. The texts are the same afterwards, and on both
ways everything is up to date in the end. Only the cells that the template fills may differ: one
edit after the other may have written some that an intermediate formula referred to. -/

namespace LiveSheet.Session

open Sheet

variable {s : Session} {edits : List (Coord × String)}

theorem Reachable.cascadePending_eachEdit (h : s.Reachable)
    (hcols : s.sheet.settings.totalCols ≤ Settings.maxCount)
    (hedits : ∀ edit ∈ edits, s.sheet.inBounds edit.1 = true)
    (hpending : s.sheet.cascadePending = true → edits ≠ []) :
    (s.performAll (eachEdit edits)).sheet.cascadePending = false := by
  induction edits generalizing s with
  | nil => exact Bool.not_eq_true _ ▸ fun hpending' => hpending hpending' rfl
  | cons edit rest ih =>
      have hdone := h.cascadePending_edit hcols (hedits edit List.mem_cons_self) edit.2
      have hsettings :=
        (h.coherent.revises_perform h.furnished (.edit edit.1 edit.2)).settings_eq
      refine ih (h.perform (.edit edit.1 edit.2)) (hsettings ▸ hcols) ?_ ?_
      · rw [inBounds_congr hsettings]
        exact fun e he => hedits e (List.mem_cons_of_mem edit he)
      · exact fun hpending' => Bool.noConfusion (hdone.symm.trans hpending')

/-- Both ways revise the texts by the same edits. -/
theorem Reachable.revises_editMany (h : s.Reachable)
    (hedits : ∀ edit ∈ edits, s.sheet.inBounds edit.1 = true) :
    s.sheet.Revises edits (s.perform (.editMany edits)).sheet ∧
      s.sheet.Revises edits (s.performAll (eachEdit edits)).sheet := by
  have htogether := h.coherent.revises_perform h.furnished (.editMany edits)
  have haccepted : s.accepted (.editMany edits) = edits :=
    (accepted_eq s (.editMany edits)).trans (if_pos (List.all_eq_true.mpr hedits))
  have heach := h.revises_performAll (eachEdit edits)
  rw [haccepted] at htogether
  rw [h.history_eachEdit hedits] at heach
  exact ⟨htogether, heach⟩

/-- Edits of cells of the grid are not refused, and leave nothing to do. -/
theorem Reachable.upToDate_editMany (h : s.Reachable)
    (hedits : ∀ edit ∈ edits, s.sheet.inBounds edit.1 = true) :
    (∃ report, s.sheet.editMany edits = .ok (report, (s.perform (.editMany edits)).sheet)) ∧
      (s.perform (.editMany edits)).sheet.cascadePending = false ∧
        (s.perform (.editMany edits)).sheet.UpToDate := by
  cases hresult : s.sheet.editMany edits with
  | error e => cases (editMany_eq hedits).symm.trans hresult
  | ok result =>
      obtain ⟨hfresh, hqueue⟩ := h.coherent.sheet.settled_editMany hresult
      have hcoherent := (h.coherent.sheet.editMany hresult).coherent
      simp only [Session.perform, hresult]
      exact ⟨⟨result.1, rfl⟩, cascadePending_eq_false_iff.mpr hqueue, hcoherent, hfresh⟩

/-- With nothing in the template only the texts of the edits are written. -/
theorem templateText?_eq_none {s : Sheet} (h : ∀ c, s.template.text? c = none) (c : Coord) :
    s.templateText? c = none := by
  rw [templateText?, h, ite_self]

/-- Applying edits together is as good as applying them one after the other. If one of them is out
of bounds, the first such one is named and nothing changes. Otherwise nothing is left to do
afterwards; and unless the formulas have a cycle then, the records and the edges of all cells that
are written on both ways agree, which with a blank template are the same cells. The columns are
few enough to be counted, as those of all settings that are read. -/
theorem editMany_agrees (h : s.Reachable)
    (hcols : s.sheet.settings.totalCols ≤ Settings.maxCount) (edits : List (Coord × String)) :
    (∀ first c raw rest, edits = first ++ (c, raw) :: rest →
      (∀ edit ∈ first, s.sheet.inBounds edit.1 = true) → s.sheet.inBounds c = false →
        s.sheet.editMany edits = .error
            (.outOfBounds c s.sheet.settings.totalRows s.sheet.settings.totalCols) ∧
          s.perform (.editMany edits) = s) ∧
      ((∀ edit ∈ edits, s.sheet.inBounds edit.1 = true) →
        let t := s.perform (.editMany edits)
        let t' := s.performAll (eachEdit edits)
        (∃ report, s.sheet.editMany edits = .ok (report, t.sheet)) ∧
          t.sheet.cascadePending = false ∧ (∀ c, c ∉ t.sheet.stale) ∧
          ((s.sheet.cascadePending = true → edits ≠ []) →
            (∀ c, ¬t.sheet.written.OnCycle c) →
              (∀ c, t.sheet.store.contains c = true → t'.sheet.store.contains c = true →
                AgreeAt t.sheet t'.sheet c) ∧
              ((∀ c, s.sheet.template.text? c = none) → Alike t.sheet t'.sheet))) := by
  constructor
  · rintro first c raw rest rfl hfirst hc
    refine ⟨editMany_eq_error hfirst hc, perform_eq_of_refused ⟨(c, raw), ?_, hc⟩⟩
    exact List.mem_append_right first List.mem_cons_self
  · intro hedits
    obtain ⟨hrevises, hrevises'⟩ := h.revises_editMany hedits
    obtain ⟨hok, hpending, hfresh⟩ := h.upToDate_editMany hedits
    refine ⟨hok, hpending, hfresh.fresh, fun hempty hacyclic => ?_⟩
    have hpending' := h.cascadePending_eachEdit hcols hedits hempty
    have hfresh' := (h.performAll (eachEdit edits)).upToDate hpending'
    have hgrid := inBounds_congr (hrevises'.settings_eq.trans hrevises.settings_eq.symm)
    have htext := hrevises'.text?_eq.trans hrevises.text?_eq.symm
    refine ⟨fun c => hfresh.agreeAt hfresh' hgrid htext hacyclic, fun hblank => ?_⟩
    -- The template has nothing to write, so on both ways the records are the cells with text.
    have hwritten : ∀ {t : Sheet}, s.sheet.Revises edits t → ∀ c,
        t.store.contains c = true ↔ t.text? c ≠ none := fun hrevises =>
      contains_iff_text?_ne_none fun c hc =>
        (hc (templateText?_eq_none (hrevises.template_eq ▸ hblank) c)).elim
    refine hfresh.alike hfresh' hgrid htext hacyclic fun c => ?_
    rw [hwritten hrevises', hwritten hrevises, htext]

/-- A formula and its operand, the operand twice. -/
theorem alike_of_editMany_small :
    let edits : List (Coord × String) := [(⟨0, 0⟩, "=B1+1"), (⟨0, 1⟩, "2"), (⟨0, 1⟩, "3")]
    Alike (small.perform (.editMany edits)).sheet (small.performAll (eachEdit edits)).sheet := by
  intro edits
  have hgrid : ∀ edit ∈ edits, small.sheet.inBounds edit.1 = true := by decide
  obtain ⟨-, -, -, hagrees⟩ := (editMany_agrees reachable_small (by decide) edits).2 hgrid
  refine (hagrees (fun _ => List.cons_ne_nil _ _) fun c => ?_).2 fun c => rfl
  refine not_onCycle_of_rank start_small [.editMany edits]
    (fun c => if c = ⟨0, 0⟩ then 1 else 0) ?_ ?_ c
  · rw [reachable_small.history_eq]
    decide +kernel
  · intro c raw hraw
    cases hraw

end LiveSheet.Session
