import LiveSheet.Decimal
import LiveSheet.Json.Document

/-! # Decoding JSON

What the strings and numbers of a JSON document denote, and how the members of an object
are found.

A floating-point number is computed from a significand of at most 64 bits and a power of
ten: the digits are accumulated as long as they fit, further digits before the point count
as powers of ten, further digits after it are dropped, and the significand is multiplied or
divided by the power. The result may differ from the nearest number in its last bit. -/

namespace LiveSheet

namespace JsonNumeral

def maxSignificand : Nat := 0xffffffffffffffff

/-- The digits accumulated so far, the power of ten that they are scaled by, and whether a
digit has not fitted. -/
structure Accumulated where
  significand : Nat
  scale : Int
  full : Bool

namespace Accumulated

/-- Adds a digit before the point. From the first that does not fit on, digits only count. -/
def addWhole (a : Accumulated) (c : Char) : Accumulated :=
  let next := 10 * a.significand + Numeral.digitValue c
  if a.full || next > maxSignificand then { a with scale := a.scale + 1, full := true }
  else { a with significand := next }

/-- Adds a digit after the point. From the first that does not fit on, digits are dropped. -/
def addFraction (a : Accumulated) (c : Char) : Accumulated :=
  let next := 10 * a.significand + Numeral.digitValue c
  if a.full || next > maxSignificand then { a with full := true }
  else { a with significand := next, scale := a.scale - 1 }

end Accumulated

/-- The significand of a numeral and its power of ten, the exponent left out. -/
def accumulate (n : JsonNumeral) : Accumulated :=
  let whole := n.whole.foldl Accumulated.addWhole ⟨0, 0, false⟩
  n.fraction.foldl Accumulated.addFraction { whole with full := false }

/-- The greatest power of ten that is a finite number. -/
def maxPower : Nat := 308

def power (e : Nat) : Float :=
  Float.ofScientific 1 false e

/-- Scales a number by a power of ten, in several steps down if need be. There is no result
if it is too large. -/
def scale? (x : Float) (e : Int) : Option Float :=
  if e > maxPower then if x == 0 then some x else none
  else if 0 ≤ e then
    let scaled := x * power e.toNat
    if scaled.isInf then none else some scaled
  else if -maxPower ≤ e then some (x / power e.natAbs)
  else if x == 0 then some x
  else scale? (x / power maxPower) (e + maxPower)
termination_by (-e).toNat
decreasing_by
  simp only [maxPower] at *
  omega

/-- The greatest exponent that is taken at its value. -/
def maxExponent : Nat := 0x7fffffff

def magnitude? (n : JsonNumeral) : Option Float :=
  let a := n.accumulate
  let x := (UInt64.ofNat a.significand).toFloat
  match n.exponent? with
  | none => scale? x a.scale
  | some (negative, digits) =>
      let e := Numeral.value digits
      if e > maxExponent then
        if negative || a.significand = 0 then some 0 else none
      else scale? x (if negative then a.scale - e else a.scale + e)

/-- The floating-point number that a numeral denotes. -/
def toFloat? (n : JsonNumeral) : Option Float :=
  n.magnitude?.map fun x => if n.negative then -x else x

/-- The whole number that a numeral denotes, if it is spelled as one and is no greater than
`max`. -/
def toNat? (n : JsonNumeral) (max : Nat) : Option Nat :=
  if n.negative || !n.fraction.isEmpty || n.exponent?.isSome then none
  else
    let value := Numeral.value n.whole
    if value > max then none else some value

end JsonNumeral

namespace JsonDocument

def hexValue (c : Char) : Nat :=
  if c.isDigit then c.toNat - '0'.toNat
  else if 'a' ≤ c then c.toNat - 'a'.toNat + 10
  else c.toNat - 'A'.toNat + 10

def unit (a b c d : Char) : Nat :=
  ((hexValue a * 16 + hexValue b) * 16 + hexValue c) * 16 + hexValue d

/-- The character that a letter after a backslash stands for. -/
def unescape (c : Char) : Char :=
  match c with
  | 'b' => '\x08'
  | 'f' => '\x0c'
  | 'n' => '\n'
  | 'r' => '\r'
  | 't' => '\t'
  | _ => c

/-- Whether a number is the first half of a surrogate pair. -/
def isLead (n : Nat) : Bool :=
  0xd800 ≤ n && n < 0xdc00

/-- Whether a number is the second half of a surrogate pair. -/
def isTrail (n : Nat) : Bool :=
  0xdc00 ≤ n && n < 0xe000

/-- The characters that a spelling denotes, in reverse on top of `done`; none if one half of a
surrogate pair lacks the other. -/
def decodeOnto? (done : List Char) : (spelling : List Char) → Option (List Char)
  | [] => some done.reverse
  | '\\' :: 'u' :: a :: b :: c :: d :: rest =>
      let lead := unit a b c d
      if isTrail lead then none
      else if isLead lead then
        match rest with
        | '\\' :: 'u' :: a :: b :: c :: d :: rest =>
            let trail := unit a b c d
            if isTrail trail then
              decodeOnto?
                (Char.ofNat (0x10000 + (lead - 0xd800) * 0x400 + (trail - 0xdc00)) :: done) rest
            else none
        | _ => none
      else decodeOnto? (Char.ofNat lead :: done) rest
  | '\\' :: c :: rest => decodeOnto? (unescape c :: done) rest
  | c :: rest => decodeOnto? (c :: done) rest

def decode? (spelling : List Char) : Option String :=
  (decodeOnto? [] spelling).map String.ofList

def string? : JsonDocument → Option String
  | string spelling => decode? spelling
  | _ => none

def float? : JsonDocument → Option Float
  | number n => n.toFloat?
  | _ => none

/-- The whole number of a number, up to a greatest value. -/
def natUpTo? (max : Nat) : JsonDocument → Option Nat
  | number n => n.toNat? max
  | _ => none

def isNull : JsonDocument → Bool
  | null => true
  | _ => false

/-- Whether this is `null` or an object without members. -/
def isVoid : JsonDocument → Bool
  | null => true
  | object members => members.isEmpty
  | _ => false

/-- The name that a document spells: a string, or the only key of an object that says nothing
else. `isNothing` tells what may stand beside the key. -/
def name? (isNothing : JsonDocument → Bool) : JsonDocument → Option String
  | object [(key, content)] => if isNothing content then decode? key else none
  | document => document.string?

/-- The members of an object with their keys read; none if a key is no text. -/
def keyedMembers? (members : List (List Char × JsonDocument)) :
    Option (List (String × JsonDocument)) :=
  members.mapM fun (spelling, value) => (decode? spelling).map (·, value)

/-- The member with a given key, if there is one. Two of them are a mistake. -/
def member? (members : List (String × JsonDocument)) (key : String) :
    Option (Option JsonDocument) :=
  match members.filter (·.1 == key) with
  | [] => some none
  | [(_, value)] => some (some value)
  | _ => none

/-- The members with the given keys, in this order, all of which must be there once; other
members are passed over. An array of as many elements stands for an object with them. -/
def fields? (keys : List String) : JsonDocument → Option (List JsonDocument)
  | object members => do
      let members ← keyedMembers? members
      keys.mapM fun key => (member? members key).join
  | array elements => if elements.length = keys.length then some elements else none
  | _ => none

end JsonDocument

end LiveSheet
