import LiveSheet.Sheet.Evaluation

/-! # Edits and recalculation

An edit computes the edited cell at once and marks everything that depends on it as stale.
The cascade then walks over the dependents, breadth first, and computes those that are
still stale when it reaches them. It can be run to its end or advanced step by step; edits
that arrive in between join the walk. -/

namespace LiveSheet

/-- What an edit or a recalculation has done. -/
structure Report where
  /-- The number of cells computed, the edited cell included. -/
  cellsRecomputed : Nat
  /-- The number of formulas found to lie on a cycle. -/
  cyclesDetected : Nat
  /-- The time it took, in microseconds, if somebody looked at the clock. -/
  durationUs : Nat := 0
deriving DecidableEq

namespace Report

def hadCycles (r : Report) : Bool :=
  r.cyclesDetected > 0

def summary (r : Report) : String :=
  Numeral.write r.cellsRecomputed ++ " cells in " ++ Numeral.write r.durationUs ++
    "us, cycles=" ++ Numeral.write r.cyclesDetected

end Report

namespace Sheet

/-- What has been done since the counters had the given values. -/
def reportSince (s : Sheet) (before : Counters) : Report :=
  { cellsRecomputed := s.counters.computed - before.computed
    cyclesDetected := s.counters.cycles - before.cycles }

/-- Whether a cascade has work left. -/
def cascadePending (s : Sheet) : Bool :=
  !s.cascade.queue.isEmpty

/-- Adds the dependents of a cell to the cells that the cascade will visit. -/
def enqueueDependents (s : Sheet) (c : Coord) : Sheet :=
  { s with cascade.queue := s.cascade.queue.append (s.graph.dependents c) }

/-- Visits a dependent that the cascade has not visited before. It may have been computed
already, as a precedent of another one. -/
def visitDependent (s : Sheet) (c : Coord) : Sheet :=
  let s := { s with cascade.visited := s.cascade.visited.insert c }
  let s := if s.stale.contains c then s.evaluate c else s
  s.enqueueDependents c

/-- Visits at most `limit` dependents. The first component is the part of the limit that
was not used up. -/
def visitDependents (limit : Nat) (s : Sheet) : Nat × Sheet :=
  match limit with
  | 0 => (0, s)
  | left + 1 =>
      match h : s.cascade.queue.pop? with
      | none => (left + 1, s)
      | some (c, queue) =>
          have := Queue.length_of_pop? h
          let s' := { s with cascade.queue := queue }
          if s'.cascade.visited.contains c then visitDependents (left + 1) s'
          else visitDependents left (s'.visitDependent c)
termination_by (limit, s.cascade.queue.length)

/-- Forgets which cells have been visited once there is nothing left to visit. -/
def closeCascade (s : Sheet) : Sheet :=
  if s.cascade.queue.isEmpty then { s with cascade.visited := ∅ } else s

/-- Advances the cascade by at most `limit` dependents, and counts those visited. -/
def cascadeStep (s : Sheet) (limit : Nat) : Nat × Sheet :=
  let (left, s) := visitDependents limit s
  (limit - left, s.closeCascade)

/-- A limit that no cascade reaches: there are fewer cells in any grid. -/
def noLimit : Nat := 0xffffffffffffffff

/-- Writes raw text into a cell, computes the cell and has its dependents visited. Until
then they count as out of date. Fails without a change if the cell is out of bounds. -/
def beginEdit (s : Sheet) (c : Coord) (raw : String) : Except SheetError Sheet :=
  if s.inBounds c then
    let affected := s.graph.affectedBy c
    let s := { s with store := s.store.setRaw c raw, stale := s.stale.insertMany affected }
    let s := s.evaluate c
    .ok ({ s with cascade.visited := {c} }.enqueueDependents c)
  else .error (s.outOfBounds c)

/-- Writes raw text into a cell and brings the cell and all its dependents up to date. -/
def edit (s : Sheet) (c : Coord) (raw : String) : Except SheetError (Report × Sheet) :=
  let before := s.counters
  match s.beginEdit c raw with
  | .error e => .error e
  | .ok s =>
      let s := (s.cascadeStep noLimit).2
      .ok (s.reportSince before, s)

/-- Computes a cell unless that has been done since it became stale. -/
def refresh (s : Sheet) (c : Coord) : Sheet :=
  if s.stale.contains c then s.evaluate c else s

/-- Computes every record once: the formulas in row-major order, then the literals that no
formula has reached. -/
def recalculateAll (s : Sheet) : Report × Sheet :=
  let before := s.counters
  let cells := s.store.coords
  let formulas := s.store.formulaCells
  let s := { s with stale := s.stale.insertMany cells }
  let s := (formulas ++ cells).foldl refresh s
  (s.reportSince before, s)

/-- Forgets the graph, the results and the cascade. -/
def forget (s : Sheet) : Sheet :=
  { s with graph := ∅, memo := s.memo.clear, cascade := .empty }

/-- Writes many cells and recalculates everything, starting from an empty graph and an
empty memory. Fails without a change if any cell is out of bounds. -/
def editMany (s : Sheet) (edits : List (Coord × String)) : Except SheetError (Report × Sheet) :=
  match edits.find? fun (c, _) => !s.inBounds c with
  | some (c, _) => .error (s.outOfBounds c)
  | none =>
      let store := edits.foldl (fun store (c, raw) => store.setRaw c raw) s.store
      .ok (recalculateAll { s with store }.forget)

end Sheet

end LiveSheet
