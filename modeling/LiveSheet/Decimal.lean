import LiveSheet.Text

/-! # Decimals

A decimal is a whole number of digits scaled by a power of ten. Every finite
floating-point number is a dyadic fraction and so has an exact decimal; `toFloat` goes
the other way and rounds to the nearest number, ties to the even one. -/

namespace LiveSheet

/-- The number `digits * 10 ^ exponent`. -/
structure Decimal where
  digits : Nat
  exponent : Int
deriving DecidableEq, Repr

namespace Decimal

def infinity : Float :=
  Float.ofBits 0x7ff0000000000000

/-- A power of ten from which on every number but zero is infinite. -/
def overflowExponent : Nat := 400

/-- The floating-point number nearest to a decimal. A number of `2 ^ 1024` or more is infinite,
which the length of the digits tells in most cases: ten is less than `2 ^ 4`. -/
def toFloat (d : Decimal) : Float :=
  match d.exponent with
  | .ofNat e =>
      if d.digits = 0 then 0
      else if e > overflowExponent ∨ d.digits.log2 ≥ 1024 then infinity
      else Float.ofScientific (d.digits * Nat.pow 10 e) false 0
  | .negSucc e =>
      if d.digits.log2 ≥ 1024 + 4 * (e + 1) then infinity
      else Float.ofScientific d.digits true (e + 1)

/-- The place value of the highest bit of a significand of full length. It is not stored: above
the 52 bits of the fraction stand eleven bits for the exponent. -/
def hiddenBit : Nat := 0x10000000000000

/-- The significand and the binary exponent of the magnitude of a finite number, which
is `significand * 2 ^ exponent`. -/
def binary (x : Float) : Nat × Int :=
  let bits := x.toBits.toNat
  let fraction := bits % hiddenBit
  let exponent : Nat := bits / hiddenBit % 0x800
  if exponent = 0 then (fraction, -1074) else (fraction + hiddenBit, (exponent : Int) - 1075)

/-- The exact decimal of `m / 2 ^ k`, in which `m` and `2 ^ k` may have a common factor. A
half is five tenths, so the reduced denominator turns into as many fives and tenths. -/
def ofHalves (m k : Nat) : Decimal :=
  let common := Nat.gcd m (Nat.pow 2 k)
  let halves := Nat.log2 (Nat.pow 2 k / common)
  ⟨m / common * Nat.pow 5 halves, -halves⟩

/-- The exact decimal of the magnitude of a finite number. -/
def exact (x : Float) : Decimal :=
  match binary x with
  | (m, .ofNat e) => ⟨m * Nat.pow 2 e, 0⟩
  | (m, .negSucc e) => ofHalves m (e + 1)

def length (d : Decimal) : Nat :=
  (Nat.toDigits 10 d.digits).length

/-! ## Reading numbers

`readNumber?` accepts an optional sign followed by digits, with an optional point and an
optional exponent, or by one of the names of the numbers that are not finite. At least
one digit must stand before the exponent. -/

/-- The decimal of the digits before and after a point. -/
def ofParts (whole fraction : List Char) : Decimal :=
  ⟨Numeral.value (whole ++ fraction), -fraction.length⟩

/-- The value of the digits of an exponent. It stops to grow where every number of less
than that many digits is already zero or infinite. -/
def exponentValue (digits : List Char) : Nat :=
  digits.foldl (fun n c => if n < 65536 then 10 * n + Numeral.digitValue c else n) 0

/-- Reads what may follow the digits of a number: nothing, or an exponent. -/
def readExponent? : List Char → Option Int
  | [] => some 0
  | c :: rest =>
      if c = 'e' ∨ c = 'E' then
        let (negative, ds) := match rest with
          | '-' :: ds => (true, ds)
          | '+' :: ds => (false, ds)
          | ds => (false, ds)
        if ds.isEmpty || !ds.all Char.isDigit then none
        else some (if negative then -(exponentValue ds) else exponentValue ds)
      else none

def readMagnitude? (text : List Char) : Option Decimal :=
  let whole := text.takeWhile Char.isDigit
  let (fraction, rest) := match text.dropWhile Char.isDigit with
    | '.' :: rest => (rest.takeWhile Char.isDigit, rest.dropWhile Char.isDigit)
    | rest => ([], rest)
  if whole.isEmpty && fraction.isEmpty then none
  else (readExponent? rest).map fun e =>
    let d := ofParts whole fraction
    { d with exponent := d.exponent + e }

/-- The numbers that are not finite, by their names in lower case. -/
def named? (name : String) : Option Float :=
  if name = "inf" ∨ name = "infinity" then some infinity
  else if name = "nan" then some (infinity - infinity)
  else none

def readNumber? (text : List Char) : Option Float :=
  let (negative, unsigned) := match text with
    | '-' :: rest => (true, rest)
    | '+' :: rest => (false, rest)
    | rest => (false, rest)
  let magnitude := match readMagnitude? unsigned with
    | some d => some d.toFloat
    | none => named? (String.ofList (unsigned.map Char.toLower))
  magnitude.map fun x => if negative then -x else x

end Decimal

end LiveSheet
