import LiveSheet.Coord
import Std.Data.HashMap

/-! # Block grids

A sparse grid of values, kept in square blocks of `side` rows and columns. Blocks without
values take no room, and a query for a band of rows looks only at the blocks that overlap
it. A cell is found by its block and its place in that block; the two determine it. -/

namespace LiveSheet

/-- The position of a block among the blocks of the grid. -/
structure Block where
  row : Nat
  col : Nat
deriving DecidableEq, Hashable

/-- A place inside a block. -/
structure Place where
  row : Nat
  col : Nat
deriving DecidableEq, Hashable

namespace Block

/-- The number of rows and of columns of a block. -/
def side : Nat := 16

def of (c : Coord) : Block :=
  ⟨c.row / side, c.col / side⟩

def coord (b : Block) (p : Place) : Coord :=
  ⟨b.row * side + p.row, b.col * side + p.col⟩

end Block

def Place.of (c : Coord) : Place :=
  ⟨c.row % Block.side, c.col % Block.side⟩

theorem Block.coord_of (c : Coord) : (Block.of c).coord (Place.of c) = c := by
  cases c
  simp only [Block.coord, Block.of, Place.of, Coord.mk.injEq]
  exact ⟨Nat.div_add_mod' _ _, Nat.div_add_mod' _ _⟩

/-- A sparse grid of values with the number of its cells. -/
structure BlockGrid (α : Type) where
  blocks : Std.HashMap Block (Std.HashMap Place α)
  size : Nat

namespace BlockGrid

variable {α : Type}

def empty : BlockGrid α :=
  ⟨∅, 0⟩

instance : EmptyCollection (BlockGrid α) :=
  ⟨empty⟩

instance : Inhabited (BlockGrid α) :=
  ⟨empty⟩

def get? (g : BlockGrid α) (c : Coord) : Option α :=
  g.blocks[Block.of c]?.bind (·[Place.of c]?)

def contains (g : BlockGrid α) (c : Coord) : Bool :=
  (g.get? c).isSome

def isEmpty (g : BlockGrid α) : Bool :=
  g.size == 0

/-- Gives a cell a value, with or without one before. -/
def insert (g : BlockGrid α) (c : Coord) (value : α) : BlockGrid α where
  size := if g.contains c then g.size else g.size + 1
  blocks := g.blocks.alter (Block.of c) fun block? =>
    some ((block?.getD ∅).insert (Place.of c) value)

/-- Gives a cell a value, and returns the one that its place held before. -/
def exchange (g : BlockGrid α) (c : Coord) (value : α) : Option α × BlockGrid α :=
  ((g.blocks.getD (Block.of c) ∅)[Place.of c]?, g.insert c value)

/-- Changes the value of a cell in place; a cell without one keeps none. -/
def modify (g : BlockGrid α) (c : Coord) (f : α → α) : BlockGrid α :=
  { g with blocks := g.blocks.modify (Block.of c) fun block => block.modify (Place.of c) f }

/-- The cells of one block with their values, in no particular order. -/
def blockToList (b : Block) (block : Std.HashMap Place α) : List (Coord × α) :=
  block.toList.map fun (p, value) => (b.coord p, value)

/-- All cells with their values, in no particular order. -/
def toList (g : BlockGrid α) : List (Coord × α) :=
  g.blocks.toList.flatMap fun (b, block) => blockToList b block

def sortCells (cells : List (Coord × α)) : List (Coord × α) :=
  cells.mergeSort fun a b => a.1.rowMajor b.1

def toSortedList (g : BlockGrid α) : List (Coord × α) :=
  sortCells g.toList

/-- The cells of the rows from `first` to `last`, both included, in row-major order. Only
the blocks that overlap these rows are looked at. -/
def rows (g : BlockGrid α) (first last : Nat) : List (Coord × α) :=
  if first > last then []
  else
    let overlapping := g.blocks.toList.filter fun (b, _) =>
      first / Block.side ≤ b.row && b.row ≤ last / Block.side
    let cells := overlapping.flatMap fun (b, block) => blockToList b block
    sortCells (cells.filter fun (c, _) => first ≤ c.row && c.row ≤ last)

end BlockGrid

end LiveSheet
