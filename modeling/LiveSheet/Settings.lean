import LiveSheet.Formula.Memo
import LiveSheet.Viewport

/-! # Settings

The size of a sheet and how much it does at a time. Settings come from named variables, of
which each is optional, and are checked before a sheet is opened. -/

namespace LiveSheet

/-- What a sheet is opened with. -/
structure Settings where
  totalRows : Nat := 1000000
  totalCols : Nat := 26
  /-- The height of a row in pixels. -/
  rowHeight : Float := Viewport.defaultRowHeight
  /-- The rows prepared above the first visible one. -/
  leadingBuffer : Nat := 5
  /-- The rows prepared below the last visible one. -/
  trailingBuffer : Nat := 5
  /-- The rows that one step of a population pass writes. -/
  batchSize : Nat := 1000
  /-- The cells that one step of a cascade recomputes. -/
  cascadeBatchSize : Nat := 10000
  /-- The number of remembered results. -/
  cacheCapacity : Nat := Memo.defaultCapacity

namespace Settings

def maxRows : Nat := 16777216

/-- The greatest number that a count may be read as. -/
def maxCount : Nat := 0xffffffff

def maxCapacity : Nat := 0xffffffffffffffff

/-- The names of the variables that settings are read from. -/
def keys : List String :=
  ["GRIDFLOW_TOTAL_ROWS", "GRIDFLOW_TOTAL_COLS", "GRIDFLOW_ROW_HEIGHT",
    "GRIDFLOW_LEADING_BUFFER", "GRIDFLOW_TRAILING_BUFFER", "GRIDFLOW_BATCH_SIZE",
    "GRIDFLOW_CASCADE_BATCH_SIZE", "GRIDFLOW_CACHE_CAPACITY"]

/-- Refuses settings that a sheet cannot work with: the first such setting is named. -/
def validate (s : Settings) : Except SheetError Unit :=
  if s.totalRows = 0 ∨ s.totalRows > maxRows then
    .error (.invalidSetting "GRIDFLOW_TOTAL_ROWS" (Numeral.write s.totalRows))
  else if s.totalCols = 0 then
    .error (.invalidSetting "GRIDFLOW_TOTAL_COLS" (Numeral.write s.totalCols))
  else if !(s.rowHeight.isFinite && 0 < s.rowHeight) then
    .error (.invalidSetting "GRIDFLOW_ROW_HEIGHT" (Decimal.Style.plain.write s.rowHeight))
  else if s.batchSize = 0 then
    .error (.invalidSetting "GRIDFLOW_BATCH_SIZE" (Numeral.write s.batchSize))
  else if s.cascadeBatchSize = 0 then
    .error (.invalidSetting "GRIDFLOW_CASCADE_BATCH_SIZE" (Numeral.write s.cascadeBatchSize))
  else .ok ()

/-- Reads a capacity, which is at least one. -/
def readCapacity? (text : List Char) : Option Nat :=
  (Numeral.readUpTo? maxCapacity text).filter (0 < ·)

/-- The value of a variable, read from its text without the blanks around it, or the
default if there is no such variable. -/
def readVariable {α : Type} (lookup : String → Option String) (key : String)
    (read? : List Char → Option α) (default : α) : Except SheetError α :=
  match lookup key with
  | none => .ok default
  | some raw =>
      match read? (Text.trim raw.toList) with
      | some value => .ok value
      | none => .error (.invalidSetting key raw)

/-- Reads settings from variables and checks them. All variables are read before any value
is judged. -/
def ofVariables (lookup : String → Option String) : Except SheetError Settings := do
  let count := Numeral.readUpTo? maxCount
  let usual : Settings := {}
  let settings : Settings := {
    totalRows := ← readVariable lookup "GRIDFLOW_TOTAL_ROWS" count usual.totalRows
    totalCols := ← readVariable lookup "GRIDFLOW_TOTAL_COLS" count usual.totalCols
    rowHeight :=
      ← readVariable lookup "GRIDFLOW_ROW_HEIGHT" Decimal.readNumber? usual.rowHeight
    leadingBuffer := ← readVariable lookup "GRIDFLOW_LEADING_BUFFER" count usual.leadingBuffer
    trailingBuffer :=
      ← readVariable lookup "GRIDFLOW_TRAILING_BUFFER" count usual.trailingBuffer
    batchSize := ← readVariable lookup "GRIDFLOW_BATCH_SIZE" count usual.batchSize
    cascadeBatchSize :=
      ← readVariable lookup "GRIDFLOW_CASCADE_BATCH_SIZE" count usual.cascadeBatchSize
    cacheCapacity :=
      ← readVariable lookup "GRIDFLOW_CACHE_CAPACITY" readCapacity? usual.cacheCapacity }
  settings.validate
  return settings

end Settings

end LiveSheet
