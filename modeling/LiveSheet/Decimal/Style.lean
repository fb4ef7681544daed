import LiveSheet.Decimal

/-! # Number texts

The text of a number uses the fewest digits that read back as that number. A style says how
these digits are laid out. Three styles are in use: `plain` for cells and formulas, `tagged`
for diagnostics, where a number must not look like a whole one, and `interchange` for
exchanged data. -/

namespace LiveSheet.Decimal

/-! ## Shortest decimals

Of several decimals with the fewest digits it is the one nearest to the number that is
taken. For every count of digits only the two decimals next to the number on either side can
qualify, and only within half a unit of the number's last binary place. -/

/-- Which of two equally near decimals is taken. -/
inductive Tie where
  /-- The larger one. -/
  | up
  /-- The one whose last digit is even. -/
  | toEven
deriving DecidableEq, Repr

/-- Half a unit of the last binary place of `x`, in units of the last place of its exact
decimal. No decimal farther away reads back as `x`. -/
def reach (x : Float) : Nat :=
  match (binary x).2 with
  | .ofNat e => Nat.pow 2 e / 2
  | .negSucc e => Nat.pow 10 (exact x).exponent.natAbs / Nat.pow 2 (e + 2)

/-- The decimals of `count` digits on either side of a decimal of `length` digits, as far as
they are in reach, the nearer one first. A decimal that has no more than `count` digits is
its own only neighbour. -/
def neighbours (tie : Tie) (d : Decimal) (length reach count : Nat) : List Decimal :=
  let dropped := length - count
  if dropped = 0 then [d]
  else
    let scale := Nat.pow 10 dropped
    let low := d.digits / scale
    let rest := d.digits % scale
    let below : List Decimal :=
      if rest ≤ reach then [⟨low, d.exponent + dropped⟩] else []
    let above : List Decimal :=
      if scale - rest > reach then []
      else if low + 1 = Nat.pow 10 count then [⟨1, d.exponent + dropped + count⟩]
      else [⟨low + 1, d.exponent + dropped⟩]
    match compare (2 * rest) scale with
    | .lt => below ++ above
    | .gt => above ++ below
    | .eq => if tie = .toEven ∧ low % 2 = 0 then below ++ above else above ++ below

/-- The shortest decimal that reads back as the magnitude of `x`. Seventeen digits are
always enough; the exact decimal stands behind them. -/
def shortest (tie : Tie) (x : Float) : Decimal :=
  let d := exact x
  let length := d.length
  let reach := reach x
  let found := (List.range' 1 17).findSome? fun count =>
    (neighbours tie d length reach count).find? fun candidate => candidate.toFloat = x.abs
  found.getD d

/-! ## Styles -/

/-- How numbers are written. -/
structure Style where
  /-- Which numbers are written without an exponent: those whose first digit stands for a power
  of ten from the first bound up to, but not including, the second. Without bounds it is all. -/
  positional : Option (Int × Int)
  /-- Whether a whole number written without an exponent ends in `.0`. -/
  pointZero : Bool
  /-- Whether an exponent that is not negative has a plus sign. -/
  exponentPlus : Bool
  /-- Which of two equally near digit sequences is written. -/
  tie : Tie

namespace Style

/-- Digits and at most one point, never an exponent. -/
def plain : Style := ⟨none, false, false, .up⟩

/-- A point or an exponent in every number. -/
def tagged : Style := ⟨some (-4, 16), true, false, .up⟩

/-- A point or an exponent in every number, and a sign in every exponent. -/
def interchange : Style := ⟨some (-5, 16), true, true, .toEven⟩

def positionalChars (style : Style) (d : Decimal) : List Char :=
  let ds := Numeral.digits d.digits
  match d.exponent with
  | .ofNat e => ds ++ List.replicate e '0' ++ (if style.pointZero then ['.', '0'] else [])
  | .negSucc e =>
      let padded := List.replicate (e + 2 - ds.length) '0' ++ ds
      let whole := padded.length - (e + 1)
      padded.take whole ++ '.' :: padded.drop whole

def exponentChars (style : Style) (e : Int) : List Char :=
  let sign := if e < 0 then ['-'] else if style.exponentPlus then ['+'] else []
  sign ++ Numeral.digits e.natAbs

/-- The digits of a decimal with one digit before the point and an exponent. -/
def scientificChars (style : Style) (d : Decimal) (e : Int) : List Char :=
  let fraction := match (Numeral.digits d.digits).tail with
    | [] => []
    | rest => '.' :: rest
  (Numeral.digits d.digits).take 1 ++ fraction ++ 'e' :: style.exponentChars e

def decimalChars (style : Style) (d : Decimal) : List Char :=
  let e := d.exponent + d.length - 1
  match style.positional with
  | some (low, high) =>
      if d.digits = 0 ∨ (low ≤ e ∧ e < high) then style.positionalChars d
      else style.scientificChars d e
  | none => style.positionalChars d

/-- Whether a number carries a minus sign, as minus zero does. -/
def isNegative (x : Float) : Bool :=
  x.toBits ≥ 0x8000000000000000

def write (style : Style) (x : Float) : String :=
  if x.isNaN then "NaN"
  else
    let sign := if isNegative x then ['-'] else []
    let magnitude :=
      if x.isFinite then style.decimalChars (shortest style.tie x) else ['i', 'n', 'f']
    String.ofList (sign ++ magnitude)

end Style

end LiveSheet.Decimal
