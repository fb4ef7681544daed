import LiveSheet.Proofs.Session.Loading
import LiveSheet.Proofs.Session.View
import LiveSheet.Proofs.Viewport

/-! # Books on written rows

A sheet keeps a book of the rows that have been written, and a pass of how far it has come. Both
books are right at any time: a row is in the book only if all that the template has for it has a
record, and a pass is ahead of no row that is not in the book. Together with the computation of
every record as it is written this means that a pass leaves nothing of the template blank, and
neither does scrolling on the page as long as the rows written reach the rows on screen. -/

namespace LiveSheet

namespace Sheet

variable {s s' : Sheet} {c : Coord} {raw : String}

/-! ## The rows in the book -/

/-- Only rows of the grid are marked as written. -/
def MarksInGrid (s : Sheet) : Prop :=
  ∀ row, s.isMaterialized row = true → row < s.settings.totalRows

theorem MarksInGrid.congr (h : s.MarksInGrid) (hsettings : s'.settings = s.settings)
    (hmaterialized : s'.materialized = s.materialized) : s'.MarksInGrid := by
  intro row hrow
  rw [isMaterialized, hmaterialized] at hrow
  rw [hsettings]
  exact h row hrow

theorem MarksInGrid.markMaterialized (h : s.MarksInGrid) (row : Nat) :
    (s.markMaterialized row).MarksInGrid := by
  have hmarked := @isMaterialized_markMaterialized_iff s row
  obtain ⟨materialized, heq⟩ := markMaterialized_eq s row
  rw [heq] at hmarked ⊢
  intro row' hrow'
  rcases hmarked.mp hrow' with ⟨rfl, hrow⟩ | hrow'
  · exact hrow
  · exact h row' hrow'

theorem MarksInGrid.fills (h : s.MarksInGrid) (hs : s.Coherent) (hfills : s.Fills s') :
    s'.MarksInGrid := by
  induction hfills with
  | start => exact h
  | @evaluate s' c hfills _ _ ih =>
      have hext := ((hfills.keeps hs).coherent.evaluates c).toExtends
      exact ih.congr hext.settings_eq hext.materialized_eq
  | mark _ row ih => exact ih.markMaterialized row

namespace Coherent

variable {report : Report} {edits : List (Coord × String)}

theorem materialized_edit (h : s.Coherent) (hs : s.Furnished)
    (hs' : s.edit c raw = .ok (report, s')) : s'.materialized = s.materialized := by
  obtain ⟨s₁, hbegin, rfl⟩ := edit_eq_ok hs'
  have hfurnished := (h.revises_beginEdit hs hbegin).furnished
  rw [(hfurnished.upkeep (upkeep_cascadeStep s₁ noLimit)).2.materialized_eq]
  exact h.materialized_beginEdit hbegin

theorem materialized_editMany (h : s.Coherent) (hs' : s.editMany edits = .ok (report, s')) :
    s'.materialized = s.materialized := by
  obtain ⟨hedits, rfl⟩ := editMany_eq_ok hs'
  obtain ⟨htidy, hsound⟩ := h.sound_rewrite hedits
  exact (extends_recalculateAll (s := (s.rewrite edits).forget) htidy hsound).materialized_eq

end Coherent

/-- All that the template has for a marked row has a record. -/
theorem Furnished.contains_of_isMaterialized (h : s.Furnished) (hmarks : s.MarksInGrid)
    (htemplate : s.template.Announces s.settings.totalCols) (hrow : s.isMaterialized c.row = true)
    (hcol : c.col < s.settings.totalCols) (htext : s.template.text? c ≠ none) :
    s.store.contains c = true := by
  rcases h.rows c.row hrow with hblank | hwritten
  · cases hblank.symm.trans (htemplate c.row c.col hcol htext)
  · refine hwritten c rfl ?_
    rwa [templateText?, if_pos (inBounds_iff.mpr ⟨hmarks c.row hrow, hcol⟩)]

end Sheet

namespace Session

open Sheet

variable {s : Session}

theorem Coherent.fills_writeBatch (h : s.Coherent) {batch : Batch}
    (hbatch : s.population.nextBatch? = some batch) :
    s.sheet.Fills (s.writeBatch batch).sheet := by
  have hstop := Population.stop_le_totalRows hbatch
  rw [h.rows] at hstop
  exact h.sheet.fills_materializeRows fun i hi => by omega

theorem Coherent.marksInGrid_finishPass (h : s.Coherent) (hmarks : s.sheet.MarksInGrid)
    (batches : Nat) : (s.finishPass batches).2.sheet.MarksInGrid := by
  fun_induction Session.finishPass batches s with
  | case1 => exact hmarks
  | case2 batches s batch hbatch _ ih =>
      exact ih (h.writeBatch hbatch) (hmarks.fills h.sheet (h.fills_writeBatch hbatch))

/-- Marks are made while rows are filled and at no other time. -/
theorem Coherent.marksInGrid_perform (h : s.Coherent) (hs : s.sheet.Furnished)
    (hmarks : s.sheet.MarksInGrid) (operation : Operation) :
    (s.perform operation).sheet.MarksInGrid := by
  have hkept : (s.perform operation).sheet.materialized = s.sheet.materialized →
      (s.perform operation).sheet.MarksInGrid :=
    hmarks.congr (h.revises_perform hs operation).settings_eq
  cases operation with
  | edit c raw =>
      apply hkept
      unfold Session.perform
      simp only
      split
      · next hedit => exact h.sheet.materialized_edit hs hedit
      · rfl
  | beginEdit c raw =>
      apply hkept
      unfold Session.perform
      simp only
      split
      · next hedit => exact h.sheet.materialized_beginEdit hedit
      · rfl
  | cascadeStep limit =>
      exact hkept (hs.upkeep (upkeep_cascadeStep s.sheet limit)).2.materialized_eq
  | editMany edits =>
      apply hkept
      unfold Session.perform
      simp only
      split
      · next hedit => exact h.sheet.materialized_editMany hedit
      · rfl
  | recalculateAll =>
      exact hkept (hs.upkeep (upkeep_recalculateAll s.sheet)).2.materialized_eq
  | evaluate c => exact hkept (h.sheet.evaluates c).toExtends.materialized_eq
  | setViewport offset height =>
      cases hvisible : (s.setViewport offset height).visible with
      | none =>
          apply hkept
          rw [visible_setViewport] at hvisible
          unfold Session.perform Session.setViewport
          simp only [hvisible]
      | some band =>
          obtain ⟨hsheet, hlast⟩ := sheet_setViewport hvisible
          refine hmarks.fills h.sheet (hsheet ▸ h.sheet.fills_materializeRows fun i hi => ?_)
          omega
  | startPopulation => exact hkept rfl
  | tick =>
      unfold Session.perform Session.tick
      cases hbatch : s.population.nextBatch? with
      | none => exact hmarks
      | some batch => exact hmarks.fills h.sheet (h.fills_writeBatch hbatch)
  | populateAll => exact h.startPopulation.marksInGrid_finishPass hmarks 0

theorem Reachable.marksInGrid (h : s.Reachable) : s.sheet.MarksInGrid := by
  induction h with
  | start h =>
      obtain ⟨-, hsheet, -⟩ := start_eq_ok h
      intro row hrow
      rw [hsheet, isMaterialized, Sheet.fresh, Std.HashSet.contains_empty] at hrow
      cases hrow
  | perform h operation ih => exact h.coherent.marksInGrid_perform h.furnished ih operation

/-! ## Rows on the page -/

/-- Scrolling writes all rows on the page, if the leading buffer is larger than the trailing one
by no more than one row. -/
theorem Reachable.isMaterialized_of_shows (h : s.Reachable) (offset height : Float)
    (hbuffers : s.sheet.settings.leadingBuffer ≤ s.sheet.settings.trailingBuffer + 1) {row : Nat}
    (hrow : row < s.sheet.settings.totalRows)
    (hshown : (s.setViewport offset height).viewport.Shows row) :
    (s.setViewport offset height).sheet.isMaterialized row = true := by
  rw [viewport_setViewport] at hshown
  have hband := Viewport.band?_eq ((s.viewport.scrollTo offset).setHeight height)
    (Nat.zero_lt_of_lt hrow) s.sheet.settings.leadingBuffer s.sheet.settings.trailingBuffer
  refine h.isMaterialized_of_visible ((visible_setViewport s offset height).trans hband) ?_
  exact Viewport.contains_band?_of_shows hband
    ((Nat.min_le_right _ _).trans hbuffers) hrow hshown

/-! ## Both books together -/

/-- The books are right in every session that can be reached, if the template announces its
rows. All that the template has for a marked row has a record. The rows that a pass has handed
out are marked, and when it is done all rows of the grid are. No record waits for its first
computation. So when a pass is done every cell of the grid that the template fills has a record
that has been computed. -/
theorem books_of_reachable (h : s.Reachable)
    (htemplate : s.sheet.template.Announces s.sheet.settings.totalCols) :
    (∀ row, s.sheet.isMaterialized row = true → ∀ col < s.sheet.settings.totalCols,
        s.sheet.template.text? ⟨row, col⟩ ≠ none → s.sheet.store.contains ⟨row, col⟩ = true) ∧
      (∀ next, s.population.state = .populating next →
        ∀ row < next, s.sheet.isMaterialized row = true) ∧
      (s.population.state = .done →
        ∀ row < s.sheet.settings.totalRows, s.sheet.isMaterialized row = true) ∧
      (∀ c r, s.sheet.store.get? c = some r → r.value ≠ .pending) ∧
      (s.population.state = .done → ∀ c, s.sheet.inBounds c = true →
        s.sheet.template.text? c ≠ none →
          ∃ r, s.sheet.store.get? c = some r ∧ r.value ≠ .pending) := by
  have hcontains : ∀ c : Coord, s.sheet.isMaterialized c.row = true →
      c.col < s.sheet.settings.totalCols → s.sheet.template.text? c ≠ none →
        s.sheet.store.contains c = true := fun c =>
    h.furnished.contains_of_isMaterialized h.marksInGrid htemplate
  have hmarked : s.population.state = .done →
      ∀ row < s.sheet.settings.totalRows, s.sheet.isMaterialized row = true := by
    intro hdone row hrow
    refine h.loaded row ?_
    simp only [Population.Passed, hdone, h.coherent.rows]
    exact hrow
  have hcomputed : ∀ c r, s.sheet.store.get? c = some r → r.value ≠ .pending := fun c =>
    (h.coherent.sheet.built c).1
  refine ⟨fun row hrow col hcol => hcontains ⟨row, col⟩ hrow hcol, fun next hstate row hrow => ?_,
    hmarked, hcomputed, fun hdone c hc htext => ?_⟩
  · refine h.loaded row ?_
    simp only [Population.Passed, hstate]
    exact hrow
  · obtain ⟨hrow, hcol⟩ := inBounds_iff.mp hc
    obtain ⟨r, hr⟩ := (Store.contains_iff_get? _ _).mp
      (hcontains c (hmarked hdone c.row hrow) hcol htext)
    exact ⟨r, hr, hcomputed c r hr⟩

/-- A running sum whose rows have been written by a pass. -/
theorem books_of_running_sum :
    ∃ s, Session.start { totalRows := 2, totalCols := 2 } (.chain "1") = .ok s ∧
      ∃ r, (s.perform .populateAll).sheet.store.get? ⟨1, 1⟩ = some r ∧ r.value ≠ .pending := by
  obtain ⟨s, hs⟩ :
      ∃ s, Session.start { totalRows := 2, totalCols := 2 } (.chain "1") = .ok s := ⟨_, rfl⟩
  have hreach : (s.perform .populateAll).Reachable := .perform (.start hs) _
  obtain ⟨hsettings, htemplate⟩ := settings_performAll hs [.populateAll]
  change (s.perform .populateAll).sheet.settings = _ at hsettings
  change (s.perform .populateAll).sheet.template = _ at htemplate
  obtain ⟨-, -, -, -, hfilled⟩ := books_of_reachable hreach <| by
    rw [hsettings, htemplate, Template.announces_chain_iff]
    decide
  refine ⟨s, hs, hfilled (state_populateAll s) ⟨1, 1⟩ ?_ ?_⟩
  · rw [inBounds, hsettings]
    rfl
  · rw [htemplate]
    exact (Template.chainText?_ne_none_iff "1" ⟨1, 1⟩).mpr (.inl rfl)

end Session

end LiveSheet
