import LiveSheet.Expr.Grammar
import LiveSheet.Formula
import LiveSheet.Recent

/-! # Remembered results

The arithmetic of a formula depends only on its normalised text and on the values of its
references, so a result is remembered under these two. A changed precedent is simply
another key. Failures are not remembered. -/

namespace LiveSheet

/-- What determines the result of a formula: its text and the bit patterns of its inputs,
by which zero and minus zero differ. -/
structure MemoKey where
  source : String
  inputs : List UInt64
deriving DecidableEq, Hashable

/-- How often results were asked for and computed. -/
structure MemoStats where
  hits : Nat
  misses : Nat
  /-- How often an expression was evaluated. -/
  evaluations : Nat
deriving DecidableEq, Inhabited

/-- The remembered results of formulas, with the counts of their use. -/
structure Memo where
  results : Recent MemoKey Float
  stats : MemoStats

namespace Formula

/-- The result of a formula whose references have the given values. -/
def evalWith (f : Formula) (inputs : List Float) : Except CellError Float :=
  match f.substitute inputs with
  | .error e => .error e
  | .ok text =>
      match Expr.evalText text with
      | .error e => .error e.toCellError
      | .ok x => .ok x

def memoKey (f : Formula) (inputs : List Float) : MemoKey :=
  ⟨f.source, inputs.map Float.toBits⟩

end Formula

namespace Memo

/-- The number of results kept unless something else is asked for. -/
def defaultCapacity : Nat := 65536

def empty (capacity : Nat) : Memo :=
  ⟨.empty capacity, ⟨0, 0, 0⟩⟩

/-- The result of a formula for the given inputs, from memory if it is there under the key. -/
def evaluateUnder (m : Memo) (key : MemoKey) (f : Formula) (inputs : List Float) :
    Except CellError Float × Memo :=
  match m.results.get key with
  | (some x, results) => (.ok x, ⟨results, { m.stats with hits := m.stats.hits + 1 }⟩)
  | (none, results) =>
      let misses := m.stats.misses + 1
      match f.substitute inputs with
      | .error e => (.error e, ⟨results, { m.stats with misses }⟩)
      | .ok text =>
          let stats := { m.stats with misses, evaluations := m.stats.evaluations + 1 }
          match Expr.evalText text with
          | .error e => (.error e.toCellError, ⟨results, stats⟩)
          | .ok x => (.ok x, ⟨results.put key x, stats⟩)

/-- The result of a formula, from memory if it is there. -/
def evaluate (m : Memo) (f : Formula) (inputs : List Float) : Except CellError Float × Memo :=
  m.evaluateUnder (f.memoKey inputs) f inputs

/-- The result of a formula whose inputs have the given bit patterns, from memory if it is
there. Bit patterns also tell apart what is no number, which numbers do not. -/
def evaluateBits (m : Memo) (f : Formula) (patterns : List UInt64) :
    Except CellError Float × Memo :=
  m.evaluateUnder ⟨f.source, patterns⟩ f (patterns.map Float.ofBits)

/-- Forgets every result; the counts go on. -/
def clear (m : Memo) : Memo :=
  { m with results := m.results.clear }

end Memo

end LiveSheet
