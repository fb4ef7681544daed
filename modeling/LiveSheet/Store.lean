import LiveSheet.BlockGrid
import LiveSheet.Formula
import LiveSheet.Value

/-! # The cell store

The records of the cells that have been written. The raw text of a cell is the truth; its
value is derived from it. Writing raw text computes nothing: it leaves the value pending.
Records are never removed. -/

namespace LiveSheet

/-- The raw text of a cell and the last value computed from it. -/
structure Record where
  raw : String
  value : CellValue
deriving DecidableEq

namespace Record

/-- A record whose value has not been computed yet. -/
def ofRaw (raw : String) : Record :=
  ⟨raw, .pending⟩

def isFormula (r : Record) : Bool :=
  Formula.isFormula r.raw

end Record

/-- The records of a sheet. -/
structure Store where
  cells : BlockGrid Record
deriving Inhabited

namespace Store

def empty : Store :=
  ⟨∅⟩

instance : EmptyCollection Store :=
  ⟨empty⟩

def get? (s : Store) (c : Coord) : Option Record :=
  s.cells.get? c

def raw? (s : Store) (c : Coord) : Option String :=
  (s.get? c).map Record.raw

/-- The last value of a cell; a cell without a record is empty. -/
def value (s : Store) (c : Coord) : CellValue :=
  match s.get? c with
  | some r => r.value
  | none => .empty

def contains (s : Store) (c : Coord) : Bool :=
  s.cells.contains c

def size (s : Store) : Nat :=
  s.cells.size

def isEmpty (s : Store) : Bool :=
  s.cells.isEmpty

/-- Writes the raw text of a cell, whose value is then still to be computed. -/
def setRaw (s : Store) (c : Coord) (raw : String) : Store :=
  ⟨s.cells.insert c (.ofRaw raw)⟩

/-- Writes the value of a cell that has a record. -/
def setValue (s : Store) (c : Coord) (value : CellValue) : Store :=
  ⟨s.cells.modify c fun r => { r with value }⟩

def coords (s : Store) : List Coord :=
  Coord.sorted (s.cells.toList.map Prod.fst)

/-- The cells that hold formulas, in row-major order. -/
def formulaCells (s : Store) : List Coord :=
  Coord.sorted ((s.cells.toList.filter fun (_, r) => r.isFormula).map Prod.fst)

def records (s : Store) : List (Coord × Record) :=
  s.cells.toSortedList

/-- The records of the rows from `first` to `last`, both included, in row-major order. -/
def rows (s : Store) (first last : Nat) : List (Coord × Record) :=
  s.cells.rows first last

end Store

end LiveSheet
