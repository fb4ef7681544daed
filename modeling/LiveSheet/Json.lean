import LiveSheet.Decimal.Style

/-! # JSON

The data that a sheet exchanges with its surroundings, as a tree and as text. Members of an
object keep their order. A number that is not finite has no JSON form and becomes `null`. -/

namespace LiveSheet

/-- A JSON value. -/
inductive Json where
  | null
  | number (x : Float)
  | integer (n : Nat)
  | string (s : String)
  | array (elements : List Json)
  | object (members : List (String × Json))

namespace Json

def escape (c : Char) : List Char :=
  match c with
  | '"' => ['\\', '"']
  | '\\' => ['\\', '\\']
  | '\x08' => ['\\', 'b']
  | '\x0c' => ['\\', 'f']
  | '\n' => ['\\', 'n']
  | '\r' => ['\\', 'r']
  | '\t' => ['\\', 't']
  | _ =>
      if c.toNat < 0x20 then
        ['\\', 'u', '0', '0', Nat.digitChar (c.toNat / 16), Nat.digitChar (c.toNat % 16)]
      else [c]

def quote (s : String) : String :=
  String.ofList ('"' :: s.toList.flatMap escape ++ ['"'])

def numberText (x : Float) : String :=
  if x.isFinite then Decimal.Style.interchange.write x else "null"

mutual

/-- The text of a value without any blanks. -/
def compact : Json → String
  | null => "null"
  | number x => numberText x
  | integer n => Numeral.write n
  | string s => quote s
  | array elements => "[" ++ ",".intercalate (compactElements elements) ++ "]"
  | object members => "\x7b" ++ ",".intercalate (compactMembers members) ++ "\x7d"

def compactElements : List Json → List String
  | [] => []
  | element :: rest => element.compact :: compactElements rest

def compactMembers : List (String × Json) → List String
  | [] => []
  | (key, value) :: rest => (quote key ++ ":" ++ value.compact) :: compactMembers rest

end

/-- A line break and the blanks that stand before a value at the given depth. -/
def lineBreak (depth : Nat) : String :=
  String.ofList ('\n' :: List.replicate (2 * depth) ' ')

/-- Items on lines of their own, between brackets; brackets without items are closed at
once. -/
def block (opening closing : String) (depth : Nat) (items : List String) : String :=
  if items.isEmpty then opening ++ closing
  else
    opening ++ lineBreak (depth + 1) ++
      ("," ++ lineBreak (depth + 1)).intercalate items ++ lineBreak depth ++ closing

mutual

/-- The text of a value that starts at the given depth, with every element and member on a
line of its own. -/
def prettyAt (depth : Nat) : Json → String
  | null => "null"
  | number x => numberText x
  | integer n => Numeral.write n
  | string s => quote s
  | array elements => block "[" "]" depth (prettyElements (depth + 1) elements)
  | object members => block "\x7b" "\x7d" depth (prettyMembers (depth + 1) members)

def prettyElements (depth : Nat) : List Json → List String
  | [] => []
  | element :: rest => element.prettyAt depth :: prettyElements depth rest

def prettyMembers (depth : Nat) : List (String × Json) → List String
  | [] => []
  | (key, value) :: rest =>
      (quote key ++ ": " ++ value.prettyAt depth) :: prettyMembers depth rest

end

/-- The text of a value over several lines, indented by two blanks a level. -/
def pretty (value : Json) : String :=
  value.prettyAt 0

end Json

end LiveSheet
