import LiveSheet.Coord
import Std.Data.HashMap

/-! # Row templates

A template says what a cell that has never been written contains. It is a pure function of
the coordinate. Beside the texts it says of each row whether there is anything in it at
all, so that blank rows can be passed over without a look at their columns. -/

namespace LiveSheet

/-- The initial content of a sheet. -/
structure Template where
  /-- The raw text of a cell, if the template fills it. -/
  text? : Coord → Option String
  /-- Whether a row has content within the given number of columns. -/
  hasContent : (row cols : Nat) → Bool

namespace Template

/-- A template that looks through the columns of a row for content. -/
def ofTexts (text? : Coord → Option String) : Template where
  text?
  hasContent row cols := cols.any fun col _ => (text? ⟨row, col⟩).isSome

def blank : Template where
  text? _ := none
  hasContent _ _ := false

/-- The text of a running sum: `A1` holds the seed, `B1` repeats it, and each further cell of
column B adds it to the cell above. Row numbers count from one, so the cell above the row
with index `row` has the number `row`. -/
def chainText? (seed : String) (c : Coord) : Option String :=
  match c.row, c.col with
  | 0, 0 => some seed
  | 0, 1 => some "=A$1"
  | row, 1 => some ("=A$1+B" ++ Numeral.write row)
  | _, _ => none

/-- A running sum down column B. -/
def chain (seed : String) : Template where
  text? := chainText? seed
  hasContent _ cols := cols > 1

/-- The seed of a running sum unless another is asked for. -/
def defaultSeed : String := "1"

/-- Row and column, joined by a hyphen, in the first `width` columns. -/
def labels (width : Nat) : Template where
  text? c :=
    if c.col < width then some (Numeral.write c.row ++ "-" ++ Numeral.write c.col) else none
  hasContent _ cols := min width cols > 0

/-- The listed cells have the texts given with them, the last one if a cell is listed more
than once. -/
def ofCells (cells : List (Coord × String)) : Template :=
  let table := Std.HashMap.ofList cells
  ofTexts fun c => table[c]?

end Template

end LiveSheet
