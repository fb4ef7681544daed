/-! # Viewports

Which rows are on the screen. A viewport has a scroll offset, a height and the height of a
row, all in pixels. The rows to prepare are those on the page and a number of rows above
and below it, within the grid. -/

namespace LiveSheet

/-- The rows from `first` to `last`, both included. -/
structure RowBand where
  first : Nat
  last : Nat
deriving DecidableEq, Repr

namespace RowBand

def contains (band : RowBand) (row : Nat) : Bool :=
  band.first ≤ row && row ≤ band.last

/-- The number of rows, and one for a band that ends before it starts. -/
def rowCount (band : RowBand) : Nat :=
  band.last - band.first + 1

/-- The rows of the band, but no more than `limit` of them. -/
def rowsUpTo (band : RowBand) (limit : Nat) : List Nat :=
  List.range' band.first (min limit (band.last + 1 - band.first))

end RowBand

/-- A scroll position and a container size. -/
structure Viewport where
  scrollOffset : Float
  rowHeight : Float
  height : Float

namespace Viewport

def defaultRowHeight : Float := 24

def atTop (rowHeight height : Float) : Viewport :=
  ⟨0, rowHeight, height⟩

/-- A viewport that shows twenty rows of the usual height. -/
def default : Viewport :=
  atTop defaultRowHeight (20 * defaultRowHeight)

/-- A length, which is zero if it would be negative or no number. -/
def length (x : Float) : Float :=
  if 0 < x then x else 0

def scrollTo (v : Viewport) (offset : Float) : Viewport :=
  { v with scrollOffset := length offset }

def setHeight (v : Viewport) (height : Float) : Viewport :=
  { v with height := length height }

/-- The whole part of a number, as far as 64 bits reach; zero for what is negative or no
number. -/
def wholePart (x : Float) : Nat :=
  x.toUInt64.toNat

/-- The least whole number that is no less than `x`, as far as 64 bits reach. From `2 ^ 53`
on every number is whole. -/
def roundUp (x : Float) : Nat :=
  let n := wholePart x
  if n < 0x20000000000000 ∧ Float.ofNat n < x then n + 1 else n

/-- The first row that is at least partly on the page. -/
def firstVisibleRow (v : Viewport) : Nat :=
  if v.rowHeight ≤ 0 then 0 else wholePart (v.scrollOffset / v.rowHeight)

/-- The number of rows that fit on a page, the last one perhaps in part. -/
def rowsPerPage (v : Viewport) : Nat :=
  if v.rowHeight ≤ 0 then 0 else roundUp (v.height / v.rowHeight)

/-- The rows to prepare in a grid of the given height: those of the page, and the given
numbers of rows before and after it. An empty grid has none. -/
def band? (v : Viewport) (totalRows leading trailing : Nat) : Option RowBand :=
  if totalRows = 0 then none
  else
    let last := totalRows - 1
    let start := min (v.firstVisibleRow - leading) last
    some ⟨start, min (start + v.rowsPerPage + trailing) last⟩

end Viewport

end LiveSheet
