import LiveSheet.Coord

/-! # Errors

Two kinds of errors are told apart: what a formula leaves in its cell when it has no number
to leave, and why an operation on a sheet is refused as a whole. -/

namespace LiveSheet

/-! ## Cell errors -/

/-- Why a cell has no value. Such an error stays in its cell and in the cells that
depend on it; it never stops the sheet. -/
inductive CellError where
  /-- A reference token names no cell of the grid. -/
  | invalidReference
  /-- The expression is not a sentence of the arithmetic grammar. -/
  | malformed
  /-- A division by zero. -/
  | divisionByZero
  /-- A result that is not a finite number. -/
  | notFinite
  /-- The cell refers to itself, directly or through other cells. -/
  | circular
deriving DecidableEq, Repr

namespace CellError

def name : CellError → String
  | .invalidReference => "InvalidReference"
  | .malformed => "Syntax"
  | .divisionByZero => "DivisionByZero"
  | .notFinite => "NumError"
  | .circular => "CircularReference"

def ofName? (name : String) : Option CellError :=
  [.invalidReference, .malformed, .divisionByZero, .notFinite, .circular].find?
    (·.name == name)

/-- The text that the grid shows in place of a value. -/
def display : CellError → String
  | .invalidReference => "#REF!"
  | .malformed => "#ERROR!"
  | .divisionByZero => "#DIV/0!"
  | .notFinite => "#NUM!"
  | .circular => "#CIRCULAR!"

end CellError

/-! ## Refusals -/

/-- Why a sheet refuses an operation. -/
inductive SheetError where
  /-- A cell outside the grid was to be written. -/
  | outOfBounds (cell : Coord) (rows cols : Nat)
  /-- A setting has a value that the sheet cannot work with. -/
  | invalidSetting (key value : String)
deriving DecidableEq

namespace SheetError

/-- The stable code of a refusal. -/
def code : SheetError → String
  | outOfBounds .. => "OUT_OF_BOUNDS"
  | invalidSetting .. => "INVALID_CONFIG"

def message : SheetError → String
  | outOfBounds cell rows cols =>
      "cell " ++ cell.address ++ " is outside the " ++ Numeral.write rows ++ "x" ++
        Numeral.write cols ++ " grid"
  | invalidSetting key value =>
      "invalid configuration value for " ++ key ++ ": " ++ Text.quote value

end SheetError

end LiveSheet
