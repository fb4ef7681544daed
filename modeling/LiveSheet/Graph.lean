import LiveSheet.Coord
import Std.Data.HashMap

/-! # The dependency graph

Which cells a formula refers to (its precedents), and which formulas refer to a cell (its
dependents). The two tables are converses of each other, and neither holds an empty set. -/

namespace LiveSheet

/-- The references between cells, in both directions. -/
structure Graph where
  precedentSets : Std.HashMap Coord CoordSet
  dependentSets : Std.HashMap Coord CoordSet
deriving Inhabited

namespace Graph

def empty : Graph :=
  ⟨∅, ∅⟩

instance : EmptyCollection Graph :=
  ⟨empty⟩

/-- The cells that a formula refers to, if there are any. -/
def precedents? (g : Graph) (cell : Coord) : Option CoordSet :=
  g.precedentSets[cell]?

/-- The cells that a formula refers to; none for a cell that holds no formula. -/
def precedents (g : Graph) (cell : Coord) : CoordSet :=
  (g.precedents? cell).getD ∅

/-- The cells whose formulas refer to a cell, in row-major order. -/
def dependents (g : Graph) (cell : Coord) : List Coord :=
  match g.dependentSets[cell]? with
  | some set => set.toList
  | none => []

/-- Removes a dependent from the set of one of its precedents, and the set with its last
member. -/
def retract (sets : Std.HashMap Coord CoordSet) (precedent cell : Coord) :
    Std.HashMap Coord CoordSet :=
  sets.alter precedent fun set? =>
    match set? with
    | none => none
    | some set =>
        let set := set.erase cell
        if set.isEmpty then none else some set

/-- Adds a dependent to the set of one of its precedents. -/
def attach (sets : Std.HashMap Coord CoordSet) (precedent cell : Coord) :
    Std.HashMap Coord CoordSet :=
  sets.alter precedent fun set? => some ((set?.getD ∅).insert cell)

/-- Gives a formula a new set of precedents in place of the old one. -/
def setPrecedents (g : Graph) (cell : Coord) (set : CoordSet) : Graph :=
  let retracted := (g.precedents cell).foldl (fun sets p => retract sets p cell) g.dependentSets
  { dependentSets := set.foldl (fun sets p => attach sets p cell) retracted
    precedentSets :=
      if set.isEmpty then g.precedentSets.erase cell else g.precedentSets.insert cell set }

/-- Removes the precedents of a cell that no longer holds a formula. -/
def removeCell (g : Graph) (cell : Coord) : Graph :=
  g.setPrecedents cell ∅

/-- The number of pairs of a formula and a cell that it refers to. -/
def edgeCount (g : Graph) : Nat :=
  g.precedentSets.fold (fun n _ set => n + set.size) 0

/-! ## Affected cells

The cells that depend on a given cell, directly or through others, found layer by layer:
the first layer holds the dependents of the cell, and each further layer the dependents of
the layer before it that have not been found yet. A cell's layer is therefore its shortest
distance, and the order within a layer is the order in which the cells are first met. -/

/-- Picks from a list the cells that have not been seen, each once and in order, and adds
them to what has been seen. The first component is in reverse. -/
def pick (found : List Coord × Std.HashSet Coord) (cell : Coord) :
    List Coord × Std.HashSet Coord :=
  if found.2.contains cell then found else (cell :: found.1, found.2.insert cell)

/-- The cells of a list that have not been seen, each once and in order, and the cells seen
after that. -/
def unseen (seen : Std.HashSet Coord) (cells : List Coord) : List Coord × Std.HashSet Coord :=
  let found := cells.foldl pick ([], seen)
  (found.1.reverse, found.2)

/-- The layers from a given one on, after the layers `done`, the last of which comes
first. The budget bounds their number. -/
def layersOnto (g : Graph) (done : List (List Coord)) (budget : Nat)
    (seen : Std.HashSet Coord) (layer : List Coord) : List (List Coord) :=
  match budget with
  | 0 => done.reverse
  | budget + 1 =>
      if layer.isEmpty then done.reverse
      else
        let next := unseen seen (layer.flatMap g.dependents)
        layersOnto g (layer :: done) budget next.2 next.1

/-- The cells that depend on `cell`, layer by layer. No more layers are needed than there
are cells with precedents, because each layer has one that no other layer has. -/
def layers (g : Graph) (cell : Coord) : List (List Coord) :=
  let first := unseen ∅ (g.dependents cell)
  layersOnto g [] g.precedentSets.size first.2 first.1

/-- The cells that depend on `cell`, directly or through others, nearest first. The cell
itself is among them exactly if it lies on a cycle. -/
def affectedBy (g : Graph) (cell : Coord) : List Coord :=
  (g.layers cell).flatten

end Graph

end LiveSheet
