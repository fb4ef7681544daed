import LiveSheet.Json
import LiveSheet.Json.Decoding
import LiveSheet.Session

/-! # Exchanged data

The JSON form of everything that a sheet hands to its surroundings, and the reading of what
it takes back. A value is an object with its kind under `type` and, unless the kind says it
all, its content under `value`. -/

namespace LiveSheet

namespace Coord

def toJson (c : Coord) : Json :=
  .object [("row", .integer c.row), ("col", .integer c.col)]

def ofDocument? (document : JsonDocument) : Option Coord := do
  match ← document.fields? ["row", "col"] with
  | [row, col] => return ⟨← row.natUpTo? maxIndex, ← col.natUpTo? maxIndex⟩
  | _ => none

end Coord

namespace CellValue

def toJson : CellValue → Json
  | empty => .object [("type", .string "Empty")]
  | number x => .object [("type", .string "Number"), ("value", .number x)]
  | text s => .object [("type", .string "Text"), ("value", .string s)]
  | pending => .object [("type", .string "Pending")]
  | error e => .object [("type", .string "Error"), ("value", .string e.name)]

/-- Reads a value of a given kind from its content, if there is any; `isNothing` tells what
may stand beside the name of an error. -/
def ofKind? (isNothing : JsonDocument → Bool) (kind : String) (content? : Option JsonDocument) :
    Option CellValue :=
  match kind, content? with
  | "Empty", content? => if content?.all JsonDocument.isNull then some empty else none
  | "Pending", content? => if content?.all JsonDocument.isNull then some pending else none
  | "Number", some content => content.float?.map number
  | "Text", some content => content.string?.map text
  | "Error", some content => ((content.name? isNothing).bind CellError.ofName?).map error
  | _, _ => none

/-- Whether the content of a value comes before its kind. -/
def isContentFirst (members : List (String × JsonDocument)) : Bool :=
  (members.find? fun (key, _) => key == "type" || key == "value").any (·.1 == "value")

/-- Reads a value. An array of a kind and a content stands for an object with them, except that
the kind is then spelled as a string. Content that is met before its kind is known is read more
leniently: beside the name of an error there may be an object without members as well as
`null`. -/
def ofDocument? : JsonDocument → Option CellValue
  | .object members => do
      let members ← JsonDocument.keyedMembers? members
      let kind ← (JsonDocument.member? members "type").join
      let isNothing :=
        if isContentFirst members then JsonDocument.isVoid else JsonDocument.isNull
      ofKind? isNothing (← kind.name? JsonDocument.isNull)
        (← JsonDocument.member? members "value")
  | .array [kind, content] => do ofKind? JsonDocument.isNull (← kind.string?) (some content)
  | _ => none

end CellValue

namespace Record

def toJson (r : Record) : Json :=
  .object [("rawInput", .string r.raw), ("computedValue", r.value.toJson)]

def ofDocument? (document : JsonDocument) : Option Record := do
  match ← document.fields? ["rawInput", "computedValue"] with
  | [raw, value] => return ⟨← raw.string?, ← CellValue.ofDocument? value⟩
  | _ => none

end Record

namespace RowBand

def toJson (band : RowBand) : Json :=
  .object [("startRow", .integer band.first), ("endRow", .integer band.last)]

def ofDocument? (document : JsonDocument) : Option RowBand := do
  match ← document.fields? ["startRow", "endRow"] with
  | [first, last] =>
      return ⟨← first.natUpTo? Coord.maxIndex, ← last.natUpTo? Coord.maxIndex⟩
  | _ => none

end RowBand

namespace Viewport

def toJson (v : Viewport) : Json :=
  .object [("scrollOffset", .number v.scrollOffset), ("rowHeight", .number v.rowHeight),
    ("viewportHeight", .number v.height)]

/-- Reads a viewport, whose lengths are taken as they are. -/
def ofDocument? (document : JsonDocument) : Option Viewport := do
  match ← document.fields? ["scrollOffset", "rowHeight", "viewportHeight"] with
  | [offset, rowHeight, height] =>
      return ⟨← offset.float?, ← rowHeight.float?, ← height.float?⟩
  | _ => none

end Viewport

namespace Report

def toJson (r : Report) : Json :=
  .object [("cellsRecomputed", .integer r.cellsRecomputed),
    ("cyclesDetected", .integer r.cyclesDetected), ("durationUs", .integer r.durationUs)]

end Report

namespace MemoStats

def toJson (s : MemoStats) : Json :=
  .object [("hits", .integer s.hits), ("misses", .integer s.misses),
    ("evaluations", .integer s.evaluations)]

end MemoStats

namespace Snapshot

def toJson (s : Snapshot) : Json :=
  .object [("coord", s.cell.toJson), ("address", .string s.address),
    ("rawText", match s.raw? with | some raw => .string raw | none => .null),
    ("displayValue", .string s.display), ("value", s.value.toJson)]

end Snapshot

end LiveSheet
