import LiveSheet.Sheet

/-! # Evaluation

Bringing one cell up to date, and before it every precedent that is out of date. The walk
over precedents keeps its own stack, so that no chain of formulas is too long for it. A
cell is entered to decide what it needs and left when its precedents are done; the cells
that have been entered and not left yet are active, and a formula that refers to an active
cell lies on a cycle or leads into one.

A formula that has been entered is up to date when it is left, so none is entered twice.
The budget of a walk counts these entries: it is the number of cells that there can be. -/

namespace LiveSheet

/-- A step that a walk still has to take. -/
inductive Visit where
  /-- Decide what a cell needs, and have its precedents visited before it. -/
  | enter (c : Coord)
  /-- Compute a formula whose precedents are done. -/
  | leave (c : Coord)
deriving DecidableEq

/-- A walk over precedents under way. -/
structure Walk where
  sheet : Sheet
  /-- The formulas entered and not left yet. -/
  active : Std.HashSet Coord
  stack : List Visit

/-- What a cell needs when a walk enters it. -/
inductive Entry where
  /-- It is up to date, or already active. -/
  | settled
  | literal (raw : String)
  | formula (f : Formula)

/-- The value of a formula whose operands have been found or have failed, and the memory of
results after it. -/
def Memo.value (m : Memo) (f : Formula) (inputs : Except CellError (List Float)) :
    CellValue × Memo :=
  match inputs with
  | .error e => (.error e, m)
  | .ok inputs =>
      match m.evaluate f inputs with
      | (.error e, m) => (.error e, m)
      | (.ok x, m) => (.number x, m)

namespace Sheet

/-- The operands of the references of a formula, after those already found, the last of
which comes first. The first reference that is active, out of bounds or an error decides. -/
def operandsOnto (s : Sheet) (active : Std.HashSet Coord) (done : List Float) :
    List Coord → Except CellError (List Float)
  | [] => .ok done.reverse
  | p :: rest =>
      if active.contains p then .error .circular
      else if !s.inBounds p then .error .invalidReference
      else match (s.store.value p).operand with
        | .error e => .error e
        | .ok x => s.operandsOnto active (x :: done) rest

/-- The operands of a formula, unless one of its references is an error. -/
def operands (s : Sheet) (active : Std.HashSet Coord) (f : Formula) :
    Except CellError (List Float) :=
  match f.referenceError? with
  | some e => .error e
  | none => s.operandsOnto active [] f.references

/-- Takes note of a cycle if a formula refers to an active cell. -/
def countCycle (s : Sheet) (active : Std.HashSet Coord) (f : Formula) : Sheet :=
  if f.references.any active.contains then
    { s with counters.cycles := s.counters.cycles + 1 }
  else s

/-- Computes a formula and records what it refers to. -/
def completeFormula (s : Sheet) (active : Std.HashSet Coord) (c : Coord) (f : Formula) : Sheet :=
  let s := s.countCycle active f
  let inputs := s.operands active f
  let (value, memo) := s.memo.value f inputs
  { s with memo, graph := s.graph.setPrecedents c f.precedents }.finish c value

/-- Computes the formula of a cell, if the cell has a record. -/
def complete (s : Sheet) (active : Std.HashSet Coord) (c : Coord) : Sheet :=
  match s.store.raw? c with
  | some raw => s.completeFormula active c (.ofRaw raw)
  | none => s

end Sheet

namespace Walk

def entry (w : Walk) (c : Coord) : Entry :=
  if w.active.contains c || !w.sheet.needsRefresh c then .settled
  else match w.sheet.store.raw? c with
    | none => .settled
    | some raw => if Formula.isFormula raw then .formula (.ofRaw raw) else .literal raw

/-- Has a precedent visited if it is out of date, after writing it if the template fills
it. -/
def schedule (w : Walk) (p : Coord) : Walk :=
  if w.active.contains p then w
  else
    let sheet := w.sheet.synthesize p
    if sheet.needsRefresh p then { w with sheet, stack := .enter p :: w.stack }
    else { w with sheet }

/-- Enters a formula: it is to be left once its precedents have been visited. -/
def openFormula (w : Walk) (c : Coord) (f : Formula) : Walk :=
  f.references.foldl schedule
    { w with active := w.active.insert c, stack := .leave c :: w.stack }

/-- Computes a literal, which refers to nothing. -/
def settleLiteral (w : Walk) (c : Coord) (raw : String) : Walk :=
  let sheet := { w.sheet with graph := w.sheet.graph.removeCell c }
  { w with sheet := sheet.finish c (.ofLiteral raw) }

def leaveFormula (w : Walk) (c : Coord) : Walk :=
  { w with sheet := w.sheet.complete w.active c, active := w.active.erase c }

/-- Takes steps until the stack is empty, entering at most `budget` formulas. -/
def run (budget : Nat) (w : Walk) : Walk :=
  match _hstack : w.stack with
  | [] => w
  | .leave c :: rest => run budget ({ w with stack := rest }.leaveFormula c)
  | .enter c :: rest =>
      match w.entry c with
      | .settled => run budget { w with stack := rest }
      | .literal raw => run budget ({ w with stack := rest }.settleLiteral c raw)
      | .formula f =>
          match budget with
          | 0 => w
          | budget + 1 => run budget ({ w with stack := rest }.openFormula c f)
termination_by (budget, w.stack.length)
decreasing_by
  · exact Prod.Lex.right _ (by simp [leaveFormula, _hstack])
  · exact Prod.Lex.right _ (by simp [_hstack])
  · exact Prod.Lex.right _ (by simp [settleLiteral, _hstack])
  · exact Prod.Lex.left _ _ (Nat.lt_succ_self _)

end Walk

namespace Sheet

/-- The number of cells that there can be records of, those outside the grid included. -/
def cellBound (s : Sheet) : Nat :=
  s.settings.totalRows * s.settings.totalCols + s.store.size

/-- Brings a cell up to date. The cell itself is computed in any case, its precedents only
if they are out of date. A cell without a record is written from the template first; if the
template leaves it blank, nothing happens. -/
def evaluate (s : Sheet) (c : Coord) : Sheet :=
  let s := s.synthesize c
  if s.store.contains c then
    let bound := s.cellBound
    (Walk.run bound ⟨{ s with stale := s.stale.insert c }, ∅, [.enter c]⟩).sheet
  else s

/-! ## Writing template rows

Rows are filled from the template when they are needed: when they come into view, or when a
population pass reaches them. What has been written before is never overwritten. -/

/-- Fills one cell: a blank one from the template, if the template has text for it. A record
that was never computed is computed. -/
def fillCell (s : Sheet) (c : Coord) : Sheet :=
  match s.store.get? c with
  | some r => if r.value.isPending then s.evaluate c else s
  | none =>
      match s.template.text? c with
      | some raw => { s with store := s.store.setRaw c raw }.evaluate c
      | none => s

def fillRow (s : Sheet) (row : Nat) : Sheet :=
  s.settings.totalCols.fold (fun col _ s => s.fillCell ⟨row, col⟩) s

/-- Writes and computes the template cells of a row, unless that has been done before. -/
def materializeRow (s : Sheet) (row : Nat) : Sheet :=
  if s.isMaterialized row then s
  else if s.template.hasContent row s.settings.totalCols then
    (s.fillRow row).markMaterialized row
  else s.markMaterialized row

/-- Writes and computes the template cells of `count` rows from `first` on. -/
def materializeRows (s : Sheet) (first count : Nat) : Sheet :=
  count.fold (fun i _ s => s.materializeRow (first + i)) s

end Sheet

end LiveSheet
