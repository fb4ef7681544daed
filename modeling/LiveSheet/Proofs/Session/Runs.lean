import LiveSheet.Proofs.Population
import LiveSheet.Proofs.Sheet.Edits
import LiveSheet.Session

/-! # Runs

A session may be asked for its operations in any order, and a cascade or a population pass
under way is no reason to wait. Every operation keeps the sheet coherent, so the sheet of every
session that can be reached is coherent. -/

namespace LiveSheet

/-- What a session can be asked to do. -/
inductive Operation where
  | edit (c : Coord) (raw : String)
  | beginEdit (c : Coord) (raw : String)
  | cascadeStep (limit : Nat)
  | editMany (edits : List (Coord × String))
  | recalculateAll
  | evaluate (c : Coord)
  | setViewport (offset height : Float)
  | startPopulation
  | tick
  | populateAll

/-- The operation goes on with the population pass. -/
def Operation.Populates : Operation → Prop
  | startPopulation | tick | populateAll => True
  | _ => False

namespace Session

/-- The session after an operation. A refused edit and a tick without a batch change nothing. -/
def perform (s : Session) : Operation → Session
  | .edit c raw =>
      match s.sheet.edit c raw with
      | .ok (_, sheet) => { s with sheet }
      | .error _ => s
  | .beginEdit c raw =>
      match s.sheet.beginEdit c raw with
      | .ok sheet => { s with sheet }
      | .error _ => s
  | .cascadeStep limit => { s with sheet := (s.sheet.cascadeStep limit).2 }
  | .editMany edits =>
      match s.sheet.editMany edits with
      | .ok (_, sheet) => { s with sheet }
      | .error _ => s
  | .recalculateAll => { s with sheet := s.sheet.recalculateAll.2 }
  | .evaluate c => { s with sheet := s.sheet.evaluate c }
  | .setViewport offset height => s.setViewport offset height
  | .startPopulation => s.startPopulation
  | .tick => (s.tick.map Prod.snd).getD s
  | .populateAll => s.populateAll.2

/-- Only what has to do with the pass makes a difference to it. -/
theorem population_perform (s : Session) {operation : Operation} (h : ¬operation.Populates) :
    (s.perform operation).population = s.population := by
  cases operation with
  | edit c raw | beginEdit c raw | editMany edits =>
      unfold Session.perform
      simp only
      split <;> rfl
  | cascadeStep limit | recalculateAll | evaluate c => rfl
  | setViewport offset height =>
      unfold Session.perform Session.setViewport
      simp only
      split <;> rfl
  | startPopulation | tick | populateAll => exact (h trivial).elim

/-- The sessions that operations lead to. -/
inductive Reachable : Session → Prop
  | start {settings : Settings} {template : Template} {s : Session}
      (h : Session.start settings template = .ok s) : Reachable s
  | perform {s : Session} (h : Reachable s) (operation : Operation) :
      Reachable (s.perform operation)

/-- What holds of a session between two operations. -/
structure Coherent (s : Session) : Prop where
  sheet : s.sheet.Coherent
  rows : s.population.totalRows = s.sheet.settings.totalRows

variable {s : Session}

theorem Coherent.withSheet (h : s.Coherent) {sheet : Sheet} (hsheet : s.sheet.Keeps sheet) :
    Coherent { s with sheet } :=
  ⟨hsheet.coherent, h.rows.trans (congrArg Settings.totalRows hsheet.settings_eq.symm)⟩

theorem coherent_of_start {settings : Settings} {template : Template}
    (h : Session.start settings template = .ok s) : s.Coherent := by
  unfold Session.start at h
  split at h
  · cases h
  · cases h
    exact ⟨Sheet.coherent_fresh settings template, rfl⟩

/-! ## Rows in view -/

/-- No row beyond the end of the grid is prepared. -/
theorem band?_lt {v : Viewport} {totalRows leading trailing : Nat} {band : RowBand}
    (h : v.band? totalRows leading trailing = some band) :
    band.first < totalRows ∧ band.last < totalRows := by
  unfold Viewport.band? at h
  split at h
  · cases h
  · next hrows =>
    cases h
    constructor <;> simp only <;> omega

theorem Coherent.setViewport (h : s.Coherent) (offset height : Float) :
    (s.setViewport offset height).Coherent := by
  unfold Session.setViewport
  simp only
  split
  · exact ⟨h.sheet, h.rows⟩
  · next band hband =>
    obtain ⟨-, hlast⟩ := band?_lt hband
    have hkeeps : s.sheet.Keeps
        (s.sheet.materializeRows band.first (band.last + 1 - band.first)) :=
      h.sheet.materializeRows fun i hi => by omega
    exact ⟨hkeeps.coherent, (h.withSheet hkeeps).rows⟩

/-! ## Population passes -/

theorem Coherent.startPopulation (h : s.Coherent) : s.startPopulation.Coherent :=
  ⟨h.sheet, s.population.totalRows_start.trans h.rows⟩

theorem Coherent.writeBatch (h : s.Coherent) {batch : Batch}
    (hbatch : s.population.nextBatch? = some batch) : (s.writeBatch batch).Coherent := by
  have hstop := Population.stop_le_totalRows hbatch
  rw [h.rows] at hstop
  have hkeeps : s.sheet.Keeps (s.sheet.materializeRows batch.start (batch.stop - batch.start)) :=
    h.sheet.materializeRows fun i hi => by omega
  exact ⟨hkeeps.coherent, (Population.totalRows_advance _ _).trans (h.withSheet hkeeps).rows⟩

theorem Coherent.finishPass (h : s.Coherent) (batches : Nat) :
    (s.finishPass batches).2.Coherent := by
  fun_induction Session.finishPass batches s with
  | case1 => exact h
  | case2 batches s batch hbatch _ ih => exact ih (h.writeBatch hbatch)

/-! ## Every operation -/

theorem Coherent.perform (h : s.Coherent) (operation : Operation) :
    (s.perform operation).Coherent := by
  cases operation with
  | edit c raw =>
      simp only [Session.perform]
      split
      · next hedit => exact h.withSheet (h.sheet.edit hedit)
      · exact h
  | beginEdit c raw =>
      simp only [Session.perform]
      split
      · next hedit => exact h.withSheet (h.sheet.beginEdit hedit).keeps
      · exact h
  | cascadeStep limit => exact h.withSheet (h.sheet.cascadeStep limit)
  | editMany edits =>
      simp only [Session.perform]
      split
      · next hedit => exact h.withSheet (h.sheet.editMany hedit)
      · exact h
  | recalculateAll => exact h.withSheet h.sheet.recalculateAll
  | evaluate c => exact h.withSheet (h.sheet.keeps.evaluate c)
  | setViewport offset height => exact h.setViewport offset height
  | startPopulation => exact h.startPopulation
  | tick =>
      unfold Session.perform Session.tick
      cases hbatch : s.population.nextBatch? with
      | none => exact h
      | some batch => exact h.writeBatch hbatch
  | populateAll => exact h.startPopulation.finishPass 0

/-- The sheet is coherent whatever has been asked for, and in whatever order. -/
theorem Reachable.coherent (h : s.Reachable) : s.Coherent := by
  induction h with
  | start h => exact coherent_of_start h
  | perform _ operation ih => exact ih.perform operation

/-- A session with a grid of two by two cells in which nothing has been written. -/
def small : Session where
  sheet := .fresh { totalRows := 2, totalCols := 2 } .blank
  viewport := .atTop Viewport.defaultRowHeight 0
  visible := none
  population := .idle 2 1000

theorem start_small : Session.start { totalRows := 2, totalCols := 2 } .blank = .ok small := rfl

theorem reachable_small : Reachable small :=
  .start start_small

theorem text?_small (c : Coord) : small.sheet.text? c = none := by
  rw [Sheet.text?_of_get?_eq_none (Store.get?_empty c), Sheet.templateText?]
  split <;> rfl

/-- An edit of a cell of the grid is not refused. -/
theorem Reachable.begins (h : s.Reachable) (c : Coord) (raw : String)
    (hc : s.sheet.inBounds c = true) :
    s.sheet.Begins c raw (s.perform (.beginEdit c raw)).sheet := by
  obtain ⟨sheet, hsheet⟩ : ∃ sheet, s.sheet.beginEdit c raw = .ok sheet :=
    ⟨_, Sheet.beginEdit_of_inBounds hc raw⟩
  have hperform : (s.perform (.beginEdit c raw)).sheet = sheet := by
    simp only [Session.perform, hsheet]
  rw [hperform]
  exact h.coherent.sheet.beginEdit hsheet

end Session

end LiveSheet
