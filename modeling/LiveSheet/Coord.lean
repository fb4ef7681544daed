import LiveSheet.Text
import Std.Data.TreeSet

/-! # Coordinates

A cell's place in the grid. Both parts count from zero and the order is row-major:
all of one row comes before the next. Every list of cells that a reader of the sheet
sees is sorted by this order, so that nothing depends on how a hash table iterates.

A cell is written as its column label followed by its row number, which counts from
one: `B12` is column 1, row 11. -/

namespace LiveSheet

/-- A cell's place in the grid: its row and its column, both counted from zero. -/
structure Coord where
  row : Nat
  col : Nat
deriving DecidableEq, Hashable, Inhabited, Repr

namespace Coord

/-- The greatest row or column index of the coordinate space. -/
def maxIndex : Nat := 0xffffffff

/-- Row-major order: by row, and by column within a row. -/
instance : Ord Coord where
  compare := compareLex (compareOn row) (compareOn col)

instance : Std.TransOrd Coord :=
  inferInstanceAs (Std.TransCmp (compareLex (compareOn row) (compareOn col)))

theorem compare_def (a b : Coord) :
    compare a b = (compare a.row b.row).then (compare a.col b.col) := rfl

instance : Std.LawfulEqOrd Coord where
  eq_of_compare {a b} h := by
    rw [compare_def, Ordering.then_eq_eq, Nat.compare_eq_eq, Nat.compare_eq_eq] at h
    cases a
    cases b
    simp_all

/-- Whether the cell lies in a grid of the given height and width. -/
def inGrid (c : Coord) (rows cols : Nat) : Bool :=
  c.row < rows && c.col < cols

/-- Whether `a` comes no later than `b` in row-major order. -/
def rowMajor (a b : Coord) : Bool :=
  (compare a b).isLE

/-- The cells of a list in row-major order, repetitions kept. -/
def sorted (cells : List Coord) : List Coord :=
  cells.mergeSort rowMajor

end Coord

/-- A set of cells, listed in row-major order. -/
abbrev CoordSet := Std.TreeSet Coord compare

/-! ## Column labels

Columns are labelled A, B, …, Z, AA, AB, … : bijective base 26, in which the letters
stand for one to twenty-six and there is no zero. `label` writes an index and
`ofLabel?` reads a label back, refusing what denotes no index of the coordinate space. -/

namespace Column

/-- The letter of one of the first twenty-six columns. -/
def letter (index : Nat) : Char :=
  Char.ofNat ('A'.toNat + index)

/-- The letters of a column index, put in front of `tail`. -/
def lettersOnto (index : Nat) (tail : List Char) : List Char :=
  if index < 26 then letter index :: tail
  else lettersOnto (index / 26 - 1) (letter (index % 26) :: tail)
termination_by index
decreasing_by omega

/-- The label of a column, such as `AB` for index 27. -/
def label (index : Nat) : String :=
  String.ofList (lettersOnto index [])

/-- What a letter counts for in a label: one for `A` up to twenty-six for `Z`. -/
def letterValue (c : Char) : Nat :=
  c.toNat - 'A'.toNat + 1

/-- Reads letters on top of the value of the letters before them. The bound is tested
after every letter, so no value ever exceeds twenty-six times the coordinate space. -/
def ofLettersFrom? (value : Nat) : List Char → Option Nat
  | [] => if value = 0 then none else some (value - 1)
  | c :: cs =>
      if c.isUpper then
        let next := value * 26 + letterValue c
        if next > Coord.maxIndex + 1 then none else ofLettersFrom? next cs
      else none

def ofLetters? (letters : List Char) : Option Nat :=
  ofLettersFrom? 0 letters

/-- The index of a label, if it has one: capital letters only, at least one, and no
index beyond the coordinate space. -/
def ofLabel? (label : String) : Option Nat :=
  ofLetters? label.toList

end Column

/-! ## Addresses -/

namespace Coord

/-- The address of a cell, such as `B12`. -/
def address (c : Coord) : String :=
  Column.label c.col ++ Numeral.write (c.row + 1)

/-- The cell of a row number that counts from one, if that number exists. -/
def ofRowNumber? (number col : Nat) : Option Coord :=
  if number = 0 ∨ number > maxIndex then none else some ⟨number - 1, col⟩

/-- Reads a run of capital letters and a run of digits as a cell. -/
def ofParts? (letters digits : List Char) : Option Coord :=
  if digits.isEmpty then none
  else (Column.ofLetters? letters).bind (ofRowNumber? (Numeral.value digits))

end Coord

end LiveSheet
