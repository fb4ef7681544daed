import LiveSheet.Graph
import LiveSheet.Queue
import LiveSheet.Settings
import LiveSheet.Store
import LiveSheet.Template

/-! # Sheets

The state of a grid whose formulas are kept up to date. Besides the records and the graph
of their references, a sheet knows which values may be out of date (`stale`), which cells
an edit has still to reach (`cascade`), and which rows of the template have been written
(`materialized`). -/

namespace LiveSheet

/-- The breadth-first walk over dependents that edits have left to do. -/
structure Cascade where
  queue : Queue Coord
  visited : Std.HashSet Coord
deriving Inhabited

namespace Cascade

def empty : Cascade :=
  ⟨∅, ∅⟩

end Cascade

/-- How many cells have been computed, and how many formulas were found on a cycle. -/
structure Counters where
  computed : Nat
  cycles : Nat
deriving DecidableEq, Inhabited

/-- A grid with its formulas. -/
structure Sheet where
  settings : Settings
  template : Template
  store : Store
  graph : Graph
  memo : Memo
  /-- The cells whose values may be out of date. -/
  stale : Std.HashSet Coord
  cascade : Cascade
  /-- The rows whose template cells have all been written. -/
  materialized : Std.HashSet Nat
  counters : Counters

/-- A cell as the grid shows it. -/
structure Snapshot where
  cell : Coord
  raw? : Option String
  value : CellValue

namespace Snapshot

def address (s : Snapshot) : String :=
  s.cell.address

def display (s : Snapshot) : String :=
  s.value.display

end Snapshot

namespace Sheet

/-- A sheet in which nothing has been written. -/
def fresh (settings : Settings) (template : Template) : Sheet where
  settings
  template
  store := ∅
  graph := ∅
  memo := .empty settings.cacheCapacity
  stale := ∅
  cascade := .empty
  materialized := ∅
  counters := ⟨0, 0⟩

def inBounds (s : Sheet) (c : Coord) : Bool :=
  c.inGrid s.settings.totalRows s.settings.totalCols

def outOfBounds (s : Sheet) (c : Coord) : SheetError :=
  .outOfBounds c s.settings.totalRows s.settings.totalCols

/-- The text that the template has for a cell of the grid. -/
def templateText? (s : Sheet) (c : Coord) : Option String :=
  if s.inBounds c then s.template.text? c else none

/-- Whether all template cells of a row have been written. -/
def isMaterialized (s : Sheet) (row : Nat) : Bool :=
  s.materialized.contains row

/-- The number of rows whose template cells have been written. -/
def materializedRows (s : Sheet) : Nat :=
  s.materialized.size

/-- Takes note that the template cells of a row of the grid have been written. -/
def markMaterialized (s : Sheet) (row : Nat) : Sheet :=
  if row < s.settings.totalRows then { s with materialized := s.materialized.insert row } else s

/-- Whether a cell has a record that was never computed or may be out of date. -/
def needsRefresh (s : Sheet) (c : Coord) : Bool :=
  match s.store.get? c with
  | some r => r.value.isPending || s.stale.contains c
  | none => false

/-- Writes the template text of a cell of the grid that has no record. -/
def synthesize (s : Sheet) (c : Coord) : Sheet :=
  if s.store.contains c then s
  else match s.templateText? c with
    | some raw => { s with store := s.store.setRaw c raw }
    | none => s

/-- Writes the value of a cell that has just been computed. -/
def finish (s : Sheet) (c : Coord) (value : CellValue) : Sheet :=
  { s with
    store := s.store.setValue c value
    stale := s.stale.erase c
    counters.computed := s.counters.computed + 1 }

/-- A cell as it is to be shown. What may be out of date, and what the template will write
but has not written yet, is shown as pending, so that it is never mistaken for a result. -/
def read (s : Sheet) (c : Coord) : Snapshot :=
  match s.store.get? c with
  | some r => ⟨c, some r.raw, if s.stale.contains c then .pending else r.value⟩
  | none =>
      let awaited := !s.isMaterialized c.row && (s.templateText? c).isSome
      ⟨c, none, if awaited then .pending else .empty⟩

end Sheet

end LiveSheet
