import LiveSheet.Decimal.Style
import LiveSheet.Error

/-! # Formulas

A formula is arithmetic text in which cell references stand for numbers. Blanks and `$`
marks mean nothing and are dropped first; what is left is cut into references, which are a
run of capital letters directly followed by a run of digits, and the literal text between
them. Replacing each reference by its value in parentheses gives an arithmetic expression,
so the expression language itself knows no names. -/

namespace LiveSheet

/-! ## Reference tokens

A reference token is the address of a cell with an optional `$` before either part; the
marks have no effect. -/

namespace Coord

/-- A text without the absolute mark that it may start with. -/
def dropMark : List Char → List Char
  | '$' :: rest => rest
  | text => text

/-- Splits a token into its letters and digits if it has the form of a reference:
`$`, letters, `$`, digits and nothing else, the marks being optional. -/
def tokenParts? (token : List Char) : Option (List Char × List Char) :=
  let text := dropMark token
  let letters := text.takeWhile Char.isUpper
  let text := dropMark (text.dropWhile Char.isUpper)
  let digits := text.takeWhile Char.isDigit
  if letters.isEmpty || digits.isEmpty || !(text.dropWhile Char.isDigit).isEmpty then none
  else some (letters, digits)

def ofToken (token : String) : Except CellError Coord :=
  match (tokenParts? token.toList).bind fun (letters, digits) => ofParts? letters digits with
  | some c => .ok c
  | none => .error .invalidReference

end Coord

/-! ## The pieces of a formula -/

/-- A piece of a formula's text. -/
inductive Segment where
  | literal (text : String)
  /-- A reference token with the cell that it names. -/
  | reference (token : String) (target : Except CellError Coord)

namespace Segment

def text : Segment → String
  | literal text => text
  | reference token _ => token

def target? : Segment → Option Coord
  | reference _ (.ok c) => some c
  | _ => none

def error? : Segment → Option CellError
  | reference _ (.error e) => some e
  | _ => none

def ofToken (token : String) : Segment :=
  reference token (Coord.ofToken token)

/-- The first piece of a text that is not empty, and what comes after it. Letters without
digits after them are literal text, and so is any run of other characters. -/
def split (text : List Char) : Segment × List Char :=
  let letters := text.takeWhile Char.isUpper
  let rest := text.dropWhile Char.isUpper
  if letters.isEmpty then
    (literal (String.ofList (text.takeWhile (!·.isUpper))), text.dropWhile (!·.isUpper))
  else
    let digits := rest.takeWhile Char.isDigit
    if digits.isEmpty then (literal (String.ofList letters), rest)
    else (ofToken (String.ofList (letters ++ digits)), rest.dropWhile Char.isDigit)

theorem text_append_split (text : List Char) :
    (split text).1.text.toList ++ (split text).2 = text := by
  simp only [split]
  split
  · simp [Segment.text]
  · split
    · simp [Segment.text]
    · simp only [Segment.text, ofToken, String.toList_ofList, List.append_assoc,
        List.takeWhile_append_dropWhile]

/-- A piece of a text that is not empty is itself not empty. -/
theorem text_split_ne_nil (c : Char) (rest : List Char) :
    (split (c :: rest)).1.text.toList ≠ [] := by
  simp only [split]
  by_cases h : c.isUpper = true
  · split
    · simp_all
    · split <;> simp [Segment.text, ofToken, h]
  · simp [Segment.text, h]

theorem split_length_lt (c : Char) (rest : List Char) :
    (split (c :: rest)).2.length < (c :: rest).length := by
  have hlength := congrArg List.length (text_append_split (c :: rest))
  have hpos := List.length_pos_iff.mpr (text_split_ne_nil c rest)
  rw [List.length_append] at hlength
  omega

/-- The pieces of a text, after those already found, the last of which comes first. -/
def ofCharsOnto (done : List Segment) (text : List Char) : List Segment :=
  match text with
  | [] => done.reverse
  | c :: rest =>
      ofCharsOnto ((split (c :: rest)).1 :: done) (split (c :: rest)).2
termination_by text.length
decreasing_by exact split_length_lt c rest

end Segment

/-! ## Formulas -/

/-- A formula: its normalised text and the pieces of that text. -/
structure Formula where
  source : String
  segments : List Segment

namespace Formula

def isFormula (raw : String) : Bool :=
  raw.toList.head? == some '='

/-- The text of a formula without its leading `=`, its blanks and its `$` marks. -/
def normalizeChars (raw : List Char) : List Char :=
  let body := match raw with
    | '=' :: rest => rest
    | _ => raw
  body.filter fun c => !Text.isBlank c && c != '$'

/-- The normalised text of a formula. -/
def normalize (raw : String) : String :=
  String.ofList (normalizeChars raw.toList)

/-- Reads the raw text of a cell as a formula, with or without its leading `=`. -/
def ofRaw (raw : String) : Formula :=
  let source := normalize raw
  ⟨source, Segment.ofCharsOnto [] source.toList⟩

/-- The cells that a formula refers to, in order of appearance, repetitions kept. -/
def references (f : Formula) : List Coord :=
  f.segments.filterMap Segment.target?

def precedents (f : Formula) : CoordSet :=
  Std.TreeSet.ofList f.references compare

/-- The error of the first reference that names no cell. -/
def referenceError? (f : Formula) : Option CellError :=
  f.segments.findSome? Segment.error?

/-- A number as it is put in place of a reference. What is not finite is put as a word
that no expression contains. -/
def operandText (x : Float) : String :=
  if x.isFinite then Decimal.Style.plain.write x else "NaN"

/-- Puts values in place of the references of some pieces, after the text `done`. The
values are used up in order; those that are left over are ignored. -/
def substituteOnto (done : String) (segments : List Segment) (values : List Float) :
    Except CellError String :=
  match segments with
  | [] => .ok done
  | .literal text :: rest => substituteOnto (done ++ text) rest values
  | .reference _ (.error e) :: _ => .error e
  | .reference _ (.ok _) :: rest =>
      match values with
      | [] => .error .invalidReference
      | x :: values => substituteOnto (done ++ "(" ++ operandText x ++ ")") rest values

/-- The expression of a formula whose references have the given values, one for each
reference in order of appearance. Parentheses keep a minus sign with its number. -/
def substitute (f : Formula) (values : List Float) : Except CellError String :=
  substituteOnto "" f.segments values

end Formula

end LiveSheet
