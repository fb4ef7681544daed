import LiveSheet.Decimal.Style
import LiveSheet.Error

/-! # Cell values

What a cell holds once its raw text has been computed. Raw text that is no formula is a
literal: a finite number if it reads as one, and text otherwise. -/

namespace LiveSheet

/-- The value of a cell. -/
inductive CellValue where
  /-- There is nothing in the cell. -/
  | empty
  | number (x : Float)
  | text (s : String)
  /-- There is raw text, but its value has not been computed yet. -/
  | pending
  | error (e : CellError)
deriving DecidableEq, Inhabited

namespace CellValue

/-- The value of raw text that is not a formula. -/
def ofLiteral (raw : String) : CellValue :=
  if raw.isEmpty then empty
  else match Decimal.readNumber? (Text.trim raw.toList) with
    | some x => if x.isFinite then number x else text raw
    | none => text raw

def isEmpty (v : CellValue) : Bool :=
  v = empty

def isPending (v : CellValue) : Bool :=
  v = pending

def isError : CellValue → Bool
  | error _ => true
  | _ => false

def number? : CellValue → Option Float
  | number x => some x
  | _ => none

/-- What the value counts for in arithmetic: text and empty cells count as zero, and an
error is passed on. -/
def operand : CellValue → Except CellError Float
  | number x => .ok x
  | error e => .error e
  | empty | text _ | pending => .ok 0

/-- The text that the grid shows for a value; minus zero is shown as zero. -/
def display : CellValue → String
  | empty | pending => ""
  | number x => if x == 0 then "0" else Decimal.Style.plain.write x
  | text s => s
  | error e => e.display

end CellValue

end LiveSheet
