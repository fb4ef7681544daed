/-! # Population passes

A pass hands out the rows of the grid in batches, from the first to the last. It is idle
until it is started, and it can be started again once it is done. -/

namespace LiveSheet

/-- How far a population pass has come. -/
inductive PassState where
  | idle
  /-- Every row below `next` has been handed out. -/
  | populating (next : Nat)
  | done
deriving DecidableEq, Repr

/-- The rows from `start` to before `stop`. -/
structure Batch where
  start : Nat
  stop : Nat
deriving DecidableEq, Repr

/-- A population pass over the rows of a grid. -/
structure Population where
  totalRows : Nat
  batchSize : Nat
  batchSize_pos : 0 < batchSize
  state : PassState

namespace Population

/-- A pass that has not started; a batch has at least one row. -/
def idle (totalRows batchSize : Nat) : Population :=
  ⟨totalRows, max batchSize 1, by omega, .idle⟩

def isLoading (p : Population) : Bool :=
  match p.state with
  | .populating _ => true
  | _ => false

/-- Starts a pass from the first row, unless one is under way. -/
def start (p : Population) : Population :=
  if p.isLoading then p
  else { p with state := if p.totalRows = 0 then .done else .populating 0 }

def nextBatch? (p : Population) : Option Batch :=
  match p.state with
  | .populating next => some ⟨next, min (next + p.batchSize) p.totalRows⟩
  | _ => none

/-- Takes note that every row below `next` has been written. -/
def advance (p : Population) (next : Nat) : Population :=
  match p.state with
  | .populating _ =>
      { p with state := if next ≥ p.totalRows then .done else .populating next }
  | _ => p

/-- The fraction of the rows that have been handed out. -/
def progress (p : Population) : Float :=
  match p.state with
  | .idle => 0
  | .populating next => Float.ofNat next / Float.ofNat p.totalRows
  | .done => 1

/-- What is left of the pass: it falls with every batch. -/
def remaining (p : Population) : Nat :=
  match p.state with
  | .populating next => p.totalRows - next + 1
  | _ => 0

theorem remaining_advance_lt {p : Population} {batch : Batch} (h : p.nextBatch? = some batch) :
    (p.advance batch.stop).remaining < p.remaining := by
  have hpos := p.batchSize_pos
  unfold nextBatch? at h
  split at h
  · next next hstate =>
    cases h
    by_cases hdone : min (next + p.batchSize) p.totalRows ≥ p.totalRows
    · simp [advance, remaining, hstate, hdone]
    · simp only [advance, remaining, hstate, hdone, if_false]
      omega
  · cases h

end Population

end LiveSheet
