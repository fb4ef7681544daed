import LiveSheet.Proofs.Session.History
import LiveSheet.Proofs.Sheet.Freshness

/-! # Rows in view

Scrolling writes the rows that come into view, so nothing there waits for the template any more.
Stale records are left to the cascade: one that is in view stays pending until the cascade comes
to it, unless a cell that has been written for the view reads it. -/

namespace LiveSheet

theorem RowBand.contains_iff {band : RowBand} {row : Nat} :
    band.contains row = true ↔ band.first ≤ row ∧ row ≤ band.last := by
  rw [contains, Bool.and_eq_true, decide_eq_true_eq, decide_eq_true_eq]

namespace Session

open Sheet

variable {s : Session} {offset height : Float} {band : RowBand} {c : Coord}

theorem visible_setViewport (s : Session) (offset height : Float) :
    (s.setViewport offset height).visible =
      ((s.viewport.scrollTo offset).setHeight height).band? s.sheet.settings.totalRows
        s.sheet.settings.leadingBuffer s.sheet.settings.trailingBuffer := by
  unfold setViewport
  simp only
  split <;> rfl

theorem viewport_setViewport (s : Session) (offset height : Float) :
    (s.setViewport offset height).viewport =
      (s.viewport.scrollTo offset).setHeight height := by
  unfold setViewport
  simp only
  split <;> rfl

theorem sheet_setViewport (hvisible : (s.setViewport offset height).visible = some band) :
    (s.setViewport offset height).sheet =
        s.sheet.materializeRows band.first (band.last + 1 - band.first) ∧
      band.last < s.sheet.settings.totalRows := by
  rw [visible_setViewport] at hvisible
  refine ⟨?_, (band?_lt hvisible).2⟩
  unfold setViewport
  simp only [hvisible]

/-- Every row in view is marked as written. -/
theorem Reachable.isMaterialized_of_visible (h : s.Reachable)
    (hvisible : (s.setViewport offset height).visible = some band) {row : Nat}
    (hrow : band.contains row = true) :
    (s.setViewport offset height).sheet.isMaterialized row = true := by
  obtain ⟨hsheet, hlast⟩ := sheet_setViewport hvisible
  rw [RowBand.contains_iff] at hrow
  have hrows : ∀ i < band.last + 1 - band.first, band.first + i < s.sheet.settings.totalRows :=
    fun i hi => by omega
  have hmarked := (h.furnished.revises_materializeRows hrows).2 (row - band.first) (by omega)
  rwa [Nat.add_sub_cancel' hrow.1, ← hsheet] at hmarked

/-- Rows that have been written are left alone. -/
theorem sheet_setViewport_eq_self
    (hvisible : (s.setViewport offset height).visible = some band)
    (hrows : ∀ row, band.contains row = true → s.sheet.isMaterialized row = true) :
    (s.setViewport offset height).sheet = s.sheet := by
  rw [(sheet_setViewport hvisible).1]
  refine materializeRows_eq_self fun i hi => hrows _ (RowBand.contains_iff.mpr ?_)
  omega

theorem Reachable.fills_setViewport (h : s.Reachable)
    (hvisible : (s.setViewport offset height).visible = some band) :
    s.sheet.Fills (s.setViewport offset height).sheet := by
  obtain ⟨hsheet, hlast⟩ := sheet_setViewport hvisible
  rw [hsheet]
  exact h.coherent.sheet.fills_materializeRows fun i hi => by omega

/-- A cell in view is pending if it is stale and no cell that has been written for the view reads
it. -/
theorem Reachable.read_setViewport (h : s.Reachable)
    (hvisible : (s.setViewport offset height).visible = some band)
    (hrow : band.contains c.row = true) :
    ((s.setViewport offset height).sheet.read c).value = .pending ↔ c ∈ s.sheet.stale ∧
      ∀ d, s.sheet.store.contains d = false →
        (s.setViewport offset height).sheet.store.contains d = true →
          ¬Relation.ReflTransGen s.sheet.text?.Refers d c := by
  have hcoherent := (h.perform (.setViewport offset height)).coherent.sheet
  rw [← (h.fills_setViewport hvisible).mem_stale_iff h.coherent.sheet]
  exact hcoherent.read_eq_pending_iff (h.isMaterialized_of_visible hvisible hrow)

/-- Only what a cascade under way has still ahead may be pending in view, and not even that if a
cell that has been written for the view reads it. With no cascade under way nothing is. -/
theorem stale_of_pending_in_view (h : s.Reachable)
    (hvisible : (s.setViewport offset height).visible = some band)
    (hrow : band.contains c.row = true) :
    (((s.setViewport offset height).sheet.read c).value = .pending →
      c ∈ s.sheet.stale ∧ s.sheet.cascade.Ahead s.sheet.graph.Edge c ∧
        ∀ d, s.sheet.store.contains d = false →
          (s.setViewport offset height).sheet.store.contains d = true →
            ¬Relation.ReflTransGen s.sheet.text?.Refers d c) ∧
      (s.sheet.cascadePending = false →
        ((s.setViewport offset height).sheet.read c).value ≠ .pending) := by
  have hcoherent := h.coherent.sheet
  have hread := h.read_setViewport hvisible hrow
  constructor
  · intro hvalue
    obtain ⟨hstale, hunread⟩ := hread.mp hvalue
    exact ⟨hstale, hcoherent.ahead c hstale, hunread⟩
  · intro hpending hvalue
    exact hcoherent.not_stale_of_pending hpending (hread.mp hvalue).1

/-- A formula of the template is pending until its row comes into view. -/
theorem read_ne_pending_of_formula_in_view :
    let template := Template.ofTexts fun c => if c = ⟨1, 0⟩ then some "=A1+1" else none
    ∃ s, Session.start { totalRows := 2, totalCols := 2 } template = .ok s ∧
      (s.sheet.read ⟨1, 0⟩).value = .pending ∧
        (s.setViewport 0 48).visible = some ⟨0, 1⟩ ∧
          ((s.setViewport 0 48).sheet.read ⟨1, 0⟩).value ≠ .pending := by
  intro template
  obtain ⟨s, hs, hvisible⟩ :
      ∃ s, Session.start { totalRows := 2, totalCols := 2 } template = .ok s ∧
        (s.setViewport 0 48).visible = some ⟨0, 1⟩ := by
    refine ⟨_, rfl, ?_⟩
    rw [visible_setViewport]
    decide +kernel
  have hsheet := (start_eq_ok hs).2.1
  have hvalue : (s.sheet.read ⟨1, 0⟩).value = .pending := by
    have hnone : s.sheet.store.get? ⟨1, 0⟩ = none := by
      rw [hsheet]
      exact Store.get?_empty _
    have hmarked : s.sheet.isMaterialized 1 = false := by
      rw [hsheet]
      exact Std.HashSet.contains_empty
    have htext : s.sheet.templateText? ⟨1, 0⟩ = some "=A1+1" := by
      rw [hsheet]
      rfl
    simp only [Sheet.read, hnone, hmarked, htext]
    rfl
  have hpending : s.sheet.cascadePending = false := by
    rw [hsheet]
    rfl
  exact ⟨s, hs, hvalue, hvisible, (stale_of_pending_in_view (c := ⟨1, 0⟩) (.start hs)
    hvisible rfl).2 hpending⟩

/-! ## A cascade under way -/

theorem viewport_beginEdit (s : Session) (c : Coord) (raw : String) :
    (s.perform (.beginEdit c raw)).viewport = s.viewport := by
  unfold Session.perform
  simp only
  split <;> rfl

namespace Reachable

variable {p : Coord} {raw : String}

theorem revises_perform (h : s.Reachable) (operation : Operation) :
    s.sheet.Revises (s.accepted operation) (s.perform operation).sheet :=
  h.coherent.revises_perform h.furnished operation

/-- An edit has no effect on which rows are in view. -/
theorem visible_beginEdit (h : s.Reachable) (c : Coord) (raw : String) :
    ((s.perform (.beginEdit c raw)).setViewport offset height).visible =
      (s.setViewport offset height).visible := by
  rw [visible_setViewport, visible_setViewport, viewport_beginEdit,
    (h.revises_perform (.beginEdit c raw)).settings_eq]

theorem visible_again (h : s.Reachable) (offset height : Float) :
    ((s.setViewport offset height).setViewport offset height).visible =
      (s.setViewport offset height).visible := by
  have hsettings := (h.revises_perform (.setViewport offset height)).settings_eq
  change (s.setViewport offset height).sheet.settings = s.sheet.settings at hsettings
  rw [visible_setViewport, visible_setViewport, viewport_setViewport, hsettings]
  rfl

/-- What refers to an edited cell is stale, if the cell is no formula any more. -/
theorem stale_beginEdit (h : s.Reachable) (hp : s.sheet.inBounds p = true)
    (hliteral : Formula.isFormula raw = false) (hne : c ≠ p) (hc : s.sheet.written.Refers c p) :
    c ∈ (s.perform (.beginEdit p raw)).sheet.stale := by
  have hcoherent := h.coherent.sheet
  have htext : (s.perform (.beginEdit p raw)).sheet.text? p = some raw :=
    ((h.begins p raw hp).text?_eq p).trans (if_pos rfl)
  have hedit : s.sheet.beginEdit p raw = .ok (s.perform (.beginEdit p raw)).sheet := by
    simp only [Session.perform, beginEdit_of_inBounds hp]
  rw [hcoherent.mem_stale_beginEdit_iff hedit]
  refine ⟨.inr (.single ((hcoherent.edge_iff p c).mpr hc)), fun hpath => ?_⟩
  rcases Relation.ReflTransGen.cases_head hpath with heq | ⟨d, hd, -⟩
  · exact hne heq.symm
  · rw [Writing.Refers, Writing.references_of_literal htext hliteral] at hd
    cases hd

/-- A formula in view is pending when its operand has been edited, and the view may be asked for
again before the cascade goes on. -/
theorem pending_of_beginEdit (h : s.Reachable) (raw : String)
    (hvisible : (s.setViewport offset height).visible = some band)
    (hrows : ∀ row, band.contains row = true → s.sheet.isMaterialized row = true)
    (hp : s.sheet.inBounds p = true) (hliteral : Formula.isFormula raw = false) (hne : c ≠ p)
    (hc : s.sheet.written.Refers c p) (hrow : band.contains c.row = true) :
    (((s.perform (.beginEdit p raw)).setViewport offset height).sheet.read c).value =
      .pending := by
  have hstale := h.stale_beginEdit hp hliteral hne hc
  have hrows' := fun row hrow => (h.revises_perform (.beginEdit p raw)).materialized row
    (hrows row hrow)
  rw [← h.visible_beginEdit p raw] at hvisible
  rw [sheet_setViewport_eq_self hvisible hrows']
  exact ((h.perform (.beginEdit p raw)).coherent.sheet.read_eq_pending_iff
    (hrows' _ hrow)).mpr hstale

/-- A formula is written in view. -/
theorem formula_in_view (h : s.Reachable) (raw : String)
    (hvisible : (s.setViewport offset height).visible = some band)
    (hc : s.sheet.inBounds c = true) (hformula : Formula.isFormula raw = true)
    (hp : p ∈ (Formula.ofRaw raw).references) :
    let s' := (s.setViewport offset height).perform (.beginEdit c raw)
    s'.Reachable ∧ s'.sheet.inBounds = s.sheet.inBounds ∧
      (s'.setViewport offset height).visible = some band ∧
      (∀ row, band.contains row = true → s'.sheet.isMaterialized row = true) ∧
      s'.sheet.written.Refers c p := by
  intro s'
  have hscrolled : (s.setViewport offset height).Reachable := h.perform (.setViewport _ _)
  have hsettings : (s.setViewport offset height).sheet.settings = s.sheet.settings :=
    (h.revises_perform (.setViewport offset height)).settings_eq
  have hrevises := hscrolled.revises_perform (.beginEdit c raw)
  have hbegins := hscrolled.begins c raw (by rwa [inBounds_congr hsettings])
  have htext : s'.sheet.text? c = some raw := (hbegins.text?_eq c).trans (if_pos rfl)
  refine ⟨hscrolled.perform _, inBounds_congr (hrevises.settings_eq.trans hsettings), ?_, ?_, ?_⟩
  · rw [hscrolled.visible_beginEdit, h.visible_again, hvisible]
  · exact fun row hrow => hrevises.materialized row
      (h.isMaterialized_of_visible hvisible hrow)
  · rw [refers_written_iff hbegins.current.contains, Writing.refers_iff htext hformula]
    exact hp

end Reachable

theorem visible_small : (small.setViewport 0 48).visible = some ⟨0, 1⟩ := by
  rw [visible_setViewport]
  decide +kernel

/-- A formula in view may be pending. -/
theorem not_forall_read_ne_pending_in_view : ¬∀ s : Session, s.Reachable →
    ∀ (offset height : Float) (band : RowBand),
      (s.setViewport offset height).visible = some band →
        ∀ c, s.sheet.inBounds c = true → band.contains c.row = true →
          ((s.setViewport offset height).sheet.read c).value ≠ .pending := by
  intro h
  obtain ⟨hreach, hgrid, hvisible, hrows, hrefers⟩ := reachable_small.formula_in_view
    (c := ⟨0, 1⟩) (p := ⟨0, 0⟩) "=A1+1" visible_small rfl rfl (by decide +kernel)
  generalize (small.setViewport 0 48).perform (.beginEdit ⟨0, 1⟩ "=A1+1") = s at *
  have hpending := hreach.pending_of_beginEdit "5" hvisible hrows (hgrid ▸ rfl) rfl
    (by decide) hrefers rfl
  have hgrid' : (s.perform (.beginEdit ⟨0, 0⟩ "5")).sheet.inBounds ⟨0, 1⟩ = true := by
    rw [inBounds_congr (hreach.revises_perform _).settings_eq, hgrid]
    rfl
  exact h _ (hreach.perform (.beginEdit ⟨0, 0⟩ "5")) 0 48 _
    ((hreach.visible_beginEdit ⟨0, 0⟩ "5").trans hvisible) ⟨0, 1⟩ hgrid' rfl hpending

end Session

end LiveSheet
