import LiveSheet.Proofs.Session.Draining
import LiveSheet.Proofs.Template

/-! # Loading

A population pass marks every row that it hands out, and a marked row has all that the template
has for it. When a pass is done nothing of the template is left to write, so the records are the
cells that have text. Sessions that have been loaded and edited in different ways are therefore
alike in the end if the last edits of all cells are the same. -/

namespace LiveSheet

/-- A row that has content within the given number of columns is said to have some. -/
def Template.Announces (t : Template) (cols : Nat) : Prop :=
  ∀ row col, col < cols → t.text? ⟨row, col⟩ ≠ none → t.hasContent row cols = true

namespace Template

variable {t : Template} {cols : Nat}

theorem announces_of_candid (h : ∀ row, t.Candid row cols) : t.Announces cols :=
  fun row col hcol htext => (h row).mpr ⟨col, hcol, htext⟩

theorem announces_ofTexts (text? : Coord → Option String) (cols : Nat) :
    (ofTexts text?).Announces cols :=
  announces_of_candid fun row => candid_ofTexts text? row cols

/-- A running sum announces its rows in all grids but those of one column. -/
theorem announces_chain_iff (seed : String) (cols : Nat) :
    (chain seed).Announces cols ↔ cols ≠ 1 := by
  constructor
  · rintro h rfl
    have htext : (chain seed).text? ⟨0, 0⟩ ≠ none :=
      (chainText?_ne_none_iff seed ⟨0, 0⟩).mpr (.inr ⟨rfl, rfl⟩)
    cases h 0 0 Nat.zero_lt_one htext
  · exact fun hcols => announces_of_candid fun row =>
      (candid_chain_iff seed row cols).mpr fun hlost => hcols hlost.2

end Template

namespace Population

variable {p : Population} {batch : Batch} {row : Nat}

/-- The pass has handed out a row. -/
def Passed (p : Population) (row : Nat) : Prop :=
  match p.state with
  | .idle => False
  | .populating next => row < next
  | .done => row < p.totalRows

theorem passed_of_start (h : p.start.Passed row) : p.Passed row := by
  by_cases hloading : p.isLoading = true
  · rwa [start, if_pos hloading] at h
  · -- A pass that starts over has handed out nothing yet.
    rw [start, if_neg hloading] at h
    by_cases hrows : p.totalRows = 0
    · simp only [Passed, hrows, if_true] at h
      exact (Nat.not_lt_zero row h).elim
    · simp only [Passed, hrows, if_false] at h
      exact (Nat.not_lt_zero row h).elim

/-- With a batch the pass hands out its rows and no others. -/
theorem passed_of_advance (hbatch : p.nextBatch? = some batch)
    (h : (p.advance batch.stop).Passed row) :
    p.Passed row ∨ (batch.start ≤ row ∧ row < batch.stop) := by
  obtain ⟨next, hstate, rfl⟩ := nextBatch?_eq_some hbatch
  have hpassed : row < min (next + p.batchSize) p.totalRows := by
    simp only [advance, hstate, Passed] at h
    by_cases hdone : min (next + p.batchSize) p.totalRows ≥ p.totalRows
    · simp only [hdone, if_true] at h
      omega
    · simp only [hdone, if_false] at h
      exact h
  simp only [Passed, hstate]
  omega

end Population

namespace Session

open Sheet

variable {s s' : Session} {edits : List (Coord × String)}

/-! ## Rows that have been handed out -/

/-- Every row that the pass has handed out is marked. -/
def Loaded (s : Session) : Prop :=
  ∀ row, s.population.Passed row → s.sheet.isMaterialized row = true

theorem Loaded.of_revises (h : s.Loaded) (hrevises : s.sheet.Revises edits s'.sheet)
    (hpassed : ∀ row, s'.population.Passed row → s.population.Passed row) : s'.Loaded :=
  fun row hrow => hrevises.materialized row (h row (hpassed row hrow))

theorem Loaded.writeBatch (h : s.Loaded) (hcoherent : s.Coherent) (hs : s.sheet.Furnished)
    {batch : Batch} (hbatch : s.population.nextBatch? = some batch) :
    (s.writeBatch batch).Loaded := by
  have hstop := Population.stop_le_totalRows hbatch
  rw [hcoherent.rows] at hstop
  have hrows : ∀ i < batch.stop - batch.start, batch.start + i < s.sheet.settings.totalRows :=
    fun i hi => by omega
  obtain ⟨hrevises, hmarked⟩ := hs.revises_materializeRows hrows
  intro row hrow
  rcases Population.passed_of_advance hbatch hrow with hold | ⟨hstart, hrow⟩
  · exact hrevises.materialized row (h row hold)
  · -- A row of the batch has been marked just now.
    have hrow' := hmarked (row - batch.start) (by omega)
    rwa [Nat.add_sub_cancel' hstart] at hrow'

theorem Loaded.finishPass (h : s.Loaded) (hcoherent : s.Coherent) (hs : s.sheet.Furnished)
    (batches : Nat) : (s.finishPass batches).2.Loaded := by
  fun_induction Session.finishPass batches s with
  | case1 => exact h
  | case2 batches s batch hbatch _ ih =>
      exact ih (h.writeBatch hcoherent hs hbatch) (hcoherent.writeBatch hbatch)
        (hcoherent.revises_writeBatch hs hbatch).furnished

theorem population_edit (s : Session) (c : Coord) (raw : String) :
    (s.perform (.edit c raw)).population = s.population :=
  s.population_perform id

theorem Loaded.perform (h : s.Loaded) (hcoherent : s.Coherent) (hs : s.sheet.Furnished)
    (operation : Operation) : (s.perform operation).Loaded := by
  have hrevises := hcoherent.revises_perform hs operation
  have hkept : ¬operation.Populates → (s.perform operation).Loaded := fun hother =>
    h.of_revises hrevises fun row hrow => s.population_perform hother ▸ hrow
  cases operation with
  | startPopulation => exact h.of_revises hrevises fun row => Population.passed_of_start
  | tick =>
      unfold Session.perform Session.tick
      cases hbatch : s.population.nextBatch? with
      | none => exact h
      | some batch => exact h.writeBatch hcoherent hs hbatch
  | populateAll =>
      have hstarted : s.startPopulation.Loaded :=
        h.of_revises hs.revises fun row => Population.passed_of_start
      exact hstarted.finishPass hcoherent.startPopulation hs 0
  | _ => exact hkept id

theorem Reachable.loaded (h : s.Reachable) : s.Loaded := by
  induction h with
  | start h =>
      obtain ⟨-, -, hpopulation⟩ := start_eq_ok h
      intro row hrow
      rw [hpopulation] at hrow
      exact hrow.elim
  | perform h operation ih => exact ih.perform h.coherent h.furnished operation

/-! ## Passes that are done -/

/-- A whole pass ends. -/
theorem state_finishPass (h : s.population.state ≠ .idle) (batches : Nat) :
    (s.finishPass batches).2.population.state = .done := by
  fun_induction Session.finishPass batches s with
  | case1 batches s hnone => exact Population.state_eq_done hnone h
  | case2 batches s batch hbatch _ ih => exact ih (Population.state_advance_ne_idle hbatch)

theorem state_populateAll (s : Session) : (s.perform .populateAll).population.state = .done :=
  state_finishPass (Population.state_start_ne_idle s.population) 0

/-- When a pass is done nothing of the template is left to write. -/
theorem Reachable.contains_of_templateText? (h : s.Reachable)
    (hdone : s.population.state = .done)
    (htemplate : s.sheet.template.Announces s.sheet.settings.totalCols) (c : Coord)
    (hc : s.sheet.templateText? c ≠ none) : s.sheet.store.contains c = true := by
  obtain ⟨raw, hraw⟩ := Option.ne_none_iff_exists'.mp hc
  obtain ⟨hrow, hcol⟩ := inBounds_iff.mp (inBounds_of_templateText? hraw)
  have hpassed : s.population.Passed c.row := by
    simp only [Population.Passed, hdone, h.coherent.rows]
    exact hrow
  rcases h.furnished.rows c.row (h.loaded c.row hpassed) with hblank | hwritten
  · have htext := template_text?_of_templateText? hraw
    have hcontent := htemplate c.row c.col hcol (htext ▸ Option.some_ne_none raw)
    cases hblank.symm.trans hcontent
  · exact hwritten c rfl hc

/-- Once everything has been loaded the records are the cells that have text. -/
theorem contains_iff_of_loaded {settings : Settings} {template : Template}
    (h : Session.start settings template = .ok s)
    (htemplate : template.Announces settings.totalCols) {operations : List Operation}
    (hdone : (s.performAll operations).population.state = .done) (c : Coord) :
    (s.performAll operations).sheet.store.contains c = true ↔
      (s.performAll operations).sheet.text? c ≠ none := by
  have hreach := (Reachable.start h).performAll operations
  obtain ⟨hsettings, htemplate'⟩ := settings_performAll h operations
  refine contains_iff_text?_ne_none (hreach.contains_of_templateText? hdone ?_) c
  rwa [hsettings, htemplate']

/-- Sessions that show the same grid through the same template are alike once they have been
loaded and their cascades have come to an end, if the last edits of all cells are the same and
leave no cycle. How and when the rows were written makes no difference. -/
theorem alike_of_loaded {settings settings' : Settings} {template : Template}
    (h : Session.start settings template = .ok s)
    (h' : Session.start settings' template = .ok s')
    (hrows : settings'.totalRows = settings.totalRows)
    (hcols : settings'.totalCols = settings.totalCols)
    (htemplate : template.Announces settings.totalCols) (operations operations' : List Operation)
    (hlast : ∀ c, lastText? (s'.history operations') c = lastText? (s.history operations) c) :
    let t := s.performAll operations
    let t' := s'.performAll operations'
    t.population.state = .done → t'.population.state = .done →
      t.sheet.cascadePending = false → t'.sheet.cascadePending = false →
        (∀ c, ¬t.sheet.written.OnCycle c) → Alike t.sheet t'.sheet := by
  intro t t' hdone hdone' hpending hpending' hacyclic
  have hfresh := ((Reachable.start h).performAll operations).upToDate hpending
  have hfresh' := ((Reachable.start h').performAll operations').upToDate hpending'
  have htext : t'.sheet.text? = t.sheet.text? := by
    funext c
    rw [text?_performAll h', text?_performAll h, hlast, hrows, hcols]
  have hgrid : t'.sheet.inBounds = t.sheet.inBounds := by
    funext c
    rw [inBounds, inBounds, (settings_performAll h' operations').1,
      (settings_performAll h operations).1, hrows, hcols]
  refine hfresh.alike hfresh' hgrid htext hacyclic fun c => ?_
  rw [contains_iff_of_loaded h' (hcols ▸ htemplate) hdone',
    contains_iff_of_loaded h htemplate hdone]
  exact htext ▸ Iff.rfl

/-- A formula of the template, written before its operand is edited and after. -/
theorem alike_of_loaded_small :
    let template := Template.ofTexts fun c => if c = ⟨1, 0⟩ then some "=A1+1" else none
    ∃ s s', Session.start { totalRows := 2, totalCols := 2 } template = .ok s ∧
      Session.start { totalRows := 2, totalCols := 2, batchSize := 1, cacheCapacity := 1 }
        template = .ok s' ∧
      Alike (s.performAll [.populateAll, .edit ⟨0, 0⟩ "5"]).sheet
        (s'.performAll [.edit ⟨0, 0⟩ "3", .populateAll, .edit ⟨0, 0⟩ "5"]).sheet := by
  intro template
  obtain ⟨s, hs⟩ : ∃ s, Session.start { totalRows := 2, totalCols := 2 } template = .ok s :=
    ⟨_, rfl⟩
  obtain ⟨s', hs'⟩ : ∃ s', Session.start
      { totalRows := 2, totalCols := 2, batchSize := 1, cacheCapacity := 1 } template = .ok s' :=
    ⟨_, rfl⟩
  have hsheet := (start_eq_ok hs).2.1
  have hsheet' := (start_eq_ok hs').2.1
  have hhistory : s.history [.populateAll, .edit ⟨0, 0⟩ "5"] = [(⟨0, 0⟩, "5")] := by
    rw [(Reachable.start hs).history_eq, hsheet]
    decide
  have hhistory' : s'.history [.edit ⟨0, 0⟩ "3", .populateAll, .edit ⟨0, 0⟩ "5"] =
      [(⟨0, 0⟩, "3"), (⟨0, 0⟩, "5")] := by
    rw [(Reachable.start hs').history_eq, hsheet']
    decide
  refine ⟨s, s', hs, hs', ?_⟩
  refine alike_of_loaded hs hs' rfl rfl (Template.announces_ofTexts _ 2) _ _ ?_ ?_ ?_ ?_ ?_ ?_
  · intro c
    rw [hhistory, hhistory']
    simp only [lastText?, List.reverse_cons, List.reverse_nil, List.nil_append,
      List.cons_append, List.lookup_cons]
    cases c == ⟨0, 0⟩ <;> rfl
  · exact (population_edit ..).symm ▸ state_populateAll _
  · exact (population_edit ..).symm ▸ state_populateAll _
  · exact cascadePending_of_last_edit hs (by decide) (by decide) [.populateAll] "5"
  · exact cascadePending_of_last_edit hs' (by decide) (by decide)
      [.edit ⟨0, 0⟩ "3", .populateAll] "5"
  · refine not_onCycle_of_rank hs _ Coord.row ?_ ?_
    · rw [hhistory]
      decide
    · intro c raw hraw
      simp only [template, Template.ofTexts] at hraw
      split at hraw
      · next hc =>
        cases hraw
        rw [hc]
        decide +kernel
      · cases hraw

end Session

end LiveSheet
