import LiveSheet.Population
import LiveSheet.Sheet.Cascade
import LiveSheet.Viewport

/-! # Sessions

A sheet in use: the sheet itself, the viewport through which it is looked at, and the pass
that fills its rows in the background. -/

namespace LiveSheet

/-- A sheet with a viewport and a population pass. -/
structure Session where
  sheet : Sheet
  viewport : Viewport
  /-- The rows that the viewport asked for last. -/
  visible : Option RowBand
  population : Population

namespace Session

/-- Opens a sheet, unless the settings are refused. -/
def start (settings : Settings) (template : Template) : Except SheetError Session :=
  match settings.validate with
  | .error e => .error e
  | .ok () => .ok {
      sheet := .fresh settings template
      viewport := .atTop settings.rowHeight 0
      visible := none
      population := .idle settings.totalRows settings.batchSize }

/-- Scrolls and resizes. The rows that come into view are written before this returns. -/
def setViewport (s : Session) (offset height : Float) : Session :=
  let viewport := (s.viewport.scrollTo offset).setHeight height
  let settings := s.sheet.settings
  let visible :=
    viewport.band? settings.totalRows settings.leadingBuffer settings.trailingBuffer
  match visible with
  | none => { s with viewport, visible }
  | some band =>
      { s with
        viewport
        visible
        sheet := s.sheet.materializeRows band.first (band.last + 1 - band.first) }

/-- The cells to show: every record in the visible rows, in row-major order. -/
def readVisible (s : Session) : List Snapshot :=
  match s.visible with
  | none => []
  | some band => (s.sheet.store.rows band.first band.last).map fun (c, _) => s.sheet.read c

/-- Starts a population pass, unless one is under way. -/
def startPopulation (s : Session) : Session :=
  { s with population := s.population.start }

def writeBatch (s : Session) (batch : Batch) : Session :=
  { s with
    sheet := s.sheet.materializeRows batch.start (batch.stop - batch.start)
    population := s.population.advance batch.stop }

/-- Writes the next batch of rows, if there is one. -/
def tick (s : Session) : Option (Batch × Session) :=
  match s.population.nextBatch? with
  | none => none
  | some batch => some (batch, s.writeBatch batch)

theorem remaining_writeBatch_lt {s : Session} {batch : Batch}
    (h : s.population.nextBatch? = some batch) :
    (s.writeBatch batch).population.remaining < s.population.remaining :=
  Population.remaining_advance_lt h

/-- Writes batches until the pass is done, and counts them on top of `batches`. -/
def finishPass (batches : Nat) (s : Session) : Nat × Session :=
  match h : s.population.nextBatch? with
  | none => (batches, s)
  | some batch =>
      have := remaining_writeBatch_lt h
      finishPass (batches + 1) (s.writeBatch batch)
termination_by s.population.remaining

/-- Runs a whole population pass and counts its batches. -/
def populateAll (s : Session) : Nat × Session :=
  s.startPopulation.finishPass 0

end Session

end LiveSheet
