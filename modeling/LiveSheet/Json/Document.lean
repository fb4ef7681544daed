import LiveSheet.Text

/-! # JSON documents

The structure of a JSON text. Strings and numbers are kept as they are spelled: what they
denote is decided where they are needed, so a member that nobody asks for may hold a number
out of range or half of a surrogate pair. -/

namespace LiveSheet

/-- The spelling of a JSON number. -/
structure JsonNumeral where
  negative : Bool
  whole : List Char
  /-- The digits after the point; without a point there are none. -/
  fraction : List Char
  /-- The digits of the exponent, and whether it is negative. -/
  exponent? : Option (Bool × List Char)

/-- A JSON text, without what its strings and numbers denote. -/
inductive JsonDocument where
  | null
  | bool (b : Bool)
  | number (n : JsonNumeral)
  /-- What stands between the quotation marks. -/
  | string (spelling : List Char)
  | array (elements : List JsonDocument)
  | object (members : List (List Char × JsonDocument))

namespace JsonDocument

def isBlank (c : Char) : Bool :=
  c == ' ' || c == '\t' || c == '\n' || c == '\r'

def skipBlanks (text : List Char) : List Char :=
  text.dropWhile isBlank

def dropWord? : (word text : List Char) → Option (List Char)
  | [], text => some text
  | w :: word, c :: text => if w = c then dropWord? word text else none
  | _ :: _, [] => none

def isHexDigit (c : Char) : Bool :=
  c.isDigit || ('a' ≤ c && c ≤ 'f') || ('A' ≤ c && c ≤ 'F')

/-- Whether a character may follow a backslash; numbers of characters are another case. -/
def isEscape (c : Char) : Bool :=
  c == '"' || c == '\\' || c == '/' || c == 'b' || c == 'f' || c == 'n' || c == 'r' || c == 't'

/-- Reads a string after its opening quotation mark: its spelling, in reverse on top of
`done`, and what comes after the closing mark. -/
def readString? (done : List Char) : List Char → Option (List Char × List Char)
  | '"' :: rest => some (done.reverse, rest)
  | '\\' :: 'u' :: a :: b :: c :: d :: rest =>
      if isHexDigit a && isHexDigit b && isHexDigit c && isHexDigit d then
        readString? (d :: c :: b :: a :: 'u' :: '\\' :: done) rest
      else none
  | '\\' :: e :: rest => if isEscape e then readString? (e :: '\\' :: done) rest else none
  | c :: rest => if c = '\\' ∨ c.toNat < 0x20 then none else readString? (c :: done) rest
  | [] => none

/-- Reads the digits of an exponent, if there is one. -/
def readExponent? : List Char → Option (Option (Bool × List Char) × List Char)
  | c :: rest =>
      if c = 'e' ∨ c = 'E' then
        let (negative, text) := match rest with
          | '-' :: text => (true, text)
          | '+' :: text => (false, text)
          | text => (false, text)
        let digits := text.takeWhile Char.isDigit
        if digits.isEmpty then none
        else some (some (negative, digits), text.dropWhile Char.isDigit)
      else some (none, c :: rest)
  | [] => some (none, [])

/-- Reads the point of a number and the digits after it, of which there must be one. -/
def readFraction? : List Char → Option (List Char × List Char)
  | '.' :: rest =>
      let digits := rest.takeWhile Char.isDigit
      if digits.isEmpty then none else some (digits, rest.dropWhile Char.isDigit)
  | text => some ([], text)

/-- Reads a number. A whole part of several digits does not start with a zero. -/
def readNumeral? (text : List Char) : Option (JsonNumeral × List Char) := do
  let (negative, text) := match text with
    | '-' :: rest => (true, rest)
    | rest => (false, rest)
  let whole := text.takeWhile Char.isDigit
  if whole.isEmpty || (whole.head? == some '0' && whole.length > 1) then none
  else
    let (fraction, text) ← readFraction? (text.dropWhile Char.isDigit)
    let (exponent?, text) ← readExponent? text
    return (⟨negative, whole, fraction, exponent?⟩, text)

mutual

/-- Reads a value at the front of a text. The fuel bounds the number of values, of which a
text has no more than characters. -/
def readValue? (fuel : Nat) (text : List Char) : Option (JsonDocument × List Char) :=
  match fuel with
  | 0 => none
  | fuel + 1 =>
      match skipBlanks text with
      | 'n' :: rest => (dropWord? ['u', 'l', 'l'] rest).map (null, ·)
      | 't' :: rest => (dropWord? ['r', 'u', 'e'] rest).map (bool true, ·)
      | 'f' :: rest => (dropWord? ['a', 'l', 's', 'e'] rest).map (bool false, ·)
      | '"' :: rest => (readString? [] rest).map fun (spelling, rest) => (string spelling, rest)
      | '[' :: rest =>
          match skipBlanks rest with
          | ']' :: rest => some (array [], rest)
          | rest => readElements? fuel [] rest
      | '\x7b' :: rest =>
          match skipBlanks rest with
          | '\x7d' :: rest => some (object [], rest)
          | rest => readMembers? fuel [] rest
      | rest => (readNumeral? rest).map fun (n, rest) => (number n, rest)

/-- Reads the elements of an array after those already read, the last of which comes
first. -/
def readElements? (fuel : Nat) (done : List JsonDocument) (text : List Char) :
    Option (JsonDocument × List Char) :=
  match fuel with
  | 0 => none
  | fuel + 1 =>
      match readValue? fuel text with
      | none => none
      | some (element, rest) =>
          match skipBlanks rest with
          | ',' :: rest => readElements? fuel (element :: done) rest
          | ']' :: rest => some (array (element :: done).reverse, rest)
          | _ => none

/-- Reads the members of an object after those already read, the last of which comes
first. -/
def readMembers? (fuel : Nat) (done : List (List Char × JsonDocument)) (text : List Char) :
    Option (JsonDocument × List Char) :=
  match fuel with
  | 0 => none
  | fuel + 1 =>
      match skipBlanks text with
      | '"' :: rest =>
          match readString? [] rest with
          | none => none
          | some (key, rest) =>
              match skipBlanks rest with
              | ':' :: rest =>
                  match readValue? fuel rest with
                  | none => none
                  | some (value, rest) =>
                      match skipBlanks rest with
                      | ',' :: rest => readMembers? fuel ((key, value) :: done) rest
                      | '\x7d' :: rest => some (object ((key, value) :: done).reverse, rest)
                      | _ => none
              | _ => none
      | _ => none

end

/-- Reads a whole text as one value, with nothing but blanks around it. -/
def ofText? (text : String) : Option JsonDocument :=
  match readValue? (2 * text.length + 2) text.toList with
  | some (document, rest) => if (skipBlanks rest).isEmpty then some document else none
  | none => none

end JsonDocument

end LiveSheet
