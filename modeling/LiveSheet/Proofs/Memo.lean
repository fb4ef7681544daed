import LiveSheet.Formula.Memo
import LiveSheet.Proofs.Recent

/-! # Remembered results are the computed results

A key determines the formula and its inputs: formulas with one text are the same formula, and
a bit pattern stands for one number only. So a result that was remembered under a key is the
result of every formula that asks for it under this key. -/

namespace LiveSheet

theorem float_eq_of_toBits_eq {x y : Float} (h : x.toBits = y.toBits) : x = y := by
  cases x with
  | ofModel a =>
      cases y with
      | ofModel b =>
          cases a
          cases b
          cases h
          rfl

theorem Formula.ofRaw_eq_of_source_eq {raw raw' : String}
    (h : (ofRaw raw).source = (ofRaw raw').source) : ofRaw raw = ofRaw raw' := by
  simp only [ofRaw] at h ⊢
  rw [h]

namespace Memo

/-- Which inputs the bit patterns of a key stand for. They determine the inputs. -/
structure Coding where
  Codes : List UInt64 → List Float → Prop
  unique : ∀ {patterns : List UInt64} {inputs inputs' : List Float},
    Codes patterns inputs → Codes patterns inputs' → inputs = inputs'

namespace Coding

/-- Numbers are remembered by their bit patterns. -/
def ofNumbers : Coding where
  Codes patterns inputs := inputs.map Float.toBits = patterns
  unique h h' := (List.map_inj_right fun _ _ => float_eq_of_toBits_eq).mp (h.trans h'.symm)

/-- Bit patterns are taken as the numbers that have them. -/
def ofPatterns : Coding where
  Codes patterns inputs := patterns.map Float.ofBits = inputs
  unique h h' := h.symm.trans h'

end Coding

variable {coding : Coding}

/-- Every remembered result is the result of the formulas that have its key. -/
structure Sound (m : Memo) (coding : Coding) : Prop where
  aligned : m.results.Aligned
  eq_evalWith : ∀ (raw : String) (patterns : List UInt64) (inputs : List Float) (x : Float),
    coding.Codes patterns inputs → m.results.Holds ⟨(Formula.ofRaw raw).source, patterns⟩ x →
      (Formula.ofRaw raw).evalWith inputs = .ok x

theorem sound_empty (capacity : Nat) : (empty capacity).Sound coding where
  aligned := Recent.aligned_empty capacity
  eq_evalWith _ _ _ _ _ hold := (Recent.not_holds_empty capacity _ _ hold).elim

/-- Forgetting results keeps the others sound, whatever the counts are. -/
theorem Sound.of_holds {m : Memo} (h : m.Sound coding) {results : Recent MemoKey Float}
    {stats : MemoStats} (haligned : results.Aligned)
    (hold : ∀ key x, results.Holds key x → m.results.Holds key x) :
    Sound ⟨results, stats⟩ coding where
  aligned := haligned
  eq_evalWith raw patterns inputs x hcodes hx :=
    h.eq_evalWith raw patterns inputs x hcodes (hold _ x hx)

theorem Sound.clear {m : Memo} (h : m.Sound coding) : m.clear.Sound coding :=
  h.of_holds ((Recent.part_clear m.results).aligned h.aligned) fun _ _ hold =>
    (Recent.part_clear m.results).holds hold

/-- A result that is computed may be put in. -/
theorem Sound.put {m : Memo} (h : m.Sound coding) {raw : String} {patterns : List UInt64}
    {inputs : List Float} {x : Float} (hcodes : coding.Codes patterns inputs)
    (hx : (Formula.ofRaw raw).evalWith inputs = .ok x) (stats : MemoStats) :
    Sound ⟨m.results.put ⟨(Formula.ofRaw raw).source, patterns⟩ x, stats⟩ coding where
  aligned := h.aligned.put _ _
  eq_evalWith raw' patterns' inputs' y hcodes' hold := by
    rcases h.aligned.holds_of_put hold with ⟨hkey, rfl⟩ | hold
    · -- The key determines the formula and its inputs.
      obtain ⟨hsource, rfl⟩ := MemoKey.mk.injEq .. ▸ hkey
      rw [Formula.ofRaw_eq_of_source_eq hsource, coding.unique hcodes' hcodes]
      exact hx
    · exact h.eq_evalWith raw' patterns' inputs' y hcodes' hold

/-- Asking for a result gives what computing it gives, and keeps the memory sound. -/
theorem Sound.evaluateUnder {m : Memo} (h : m.Sound coding) (raw : String) {patterns : List UInt64}
    {inputs : List Float} (hcodes : coding.Codes patterns inputs) :
    let key : MemoKey := ⟨(Formula.ofRaw raw).source, patterns⟩
    (m.evaluateUnder key (.ofRaw raw) inputs).1 = (Formula.ofRaw raw).evalWith inputs ∧
      (m.evaluateUnder key (.ofRaw raw) inputs).2.Sound coding := by
  intro key
  obtain ⟨hfound, haligned, hheld⟩ := h.aligned.get key
  have hrest : ∀ stats, Sound ⟨(m.results.get key).2, stats⟩ coding :=
    fun stats => h.of_holds haligned hheld
  unfold Memo.evaluateUnder
  split
  · next x results hget =>
    simp only [hget] at hfound hrest
    exact ⟨(h.eq_evalWith raw patterns inputs x hcodes (hfound x rfl)).symm, hrest _⟩
  · next results hget =>
    simp only [hget] at hrest
    cases htext : (Formula.ofRaw raw).substitute inputs with
    | error e =>
        rw [Formula.evalWith, htext]
        exact ⟨rfl, hrest _⟩
    | ok text =>
        cases hvalue : Expr.evalText text with
        | error e =>
            simp only [Formula.evalWith, htext, hvalue, true_and]
            exact hrest _
        | ok x =>
            have hx : (Formula.ofRaw raw).evalWith inputs = .ok x := by
              simp only [Formula.evalWith, htext, hvalue]
            simp only [hx, hvalue, true_and]
            exact (hrest m.stats).put hcodes hx _

theorem Sound.evaluate {m : Memo} (h : m.Sound .ofNumbers) (raw : String) (inputs : List Float) :
    (m.evaluate (.ofRaw raw) inputs).1 = (Formula.ofRaw raw).evalWith inputs ∧
      (m.evaluate (.ofRaw raw) inputs).2.Sound .ofNumbers :=
  h.evaluateUnder raw rfl

theorem Sound.evaluateBits {m : Memo} (h : m.Sound .ofPatterns) (raw : String)
    (patterns : List UInt64) :
    (m.evaluateBits (.ofRaw raw) patterns).1 =
        (Formula.ofRaw raw).evalWith (patterns.map Float.ofBits) ∧
      (m.evaluateBits (.ofRaw raw) patterns).2.Sound .ofPatterns :=
  h.evaluateUnder raw rfl

/-! ## A memory that nobody notices

A memory of results is asked for results and told to forget them, in any order. What it
remembers, what it had to forget and how many results it has room for make a difference to its
counts only: every answer is the one that computing the formula anew gives. -/

/-- A use of a memory. -/
inductive Call where
  /-- Asks for the result of the formula with a raw text, whose inputs have the given bit
  patterns. They need not be as many as the formula has references. -/
  | evaluate (raw : String) (inputs : List UInt64)
  | clear

/-- What is answered to a call; nothing is answered to a call that asks for nothing. -/
abbrev Answer := Option (Except CellError Float)

namespace Call

def inputs (patterns : List UInt64) : List Float :=
  patterns.map Float.ofBits

/-- The answer without a memory. -/
def direct : Call → Answer
  | evaluate raw patterns => some ((Formula.ofRaw raw).evalWith (inputs patterns))
  | clear => none

end Call

def perform (m : Memo) : Call → Answer × Memo
  | .evaluate raw patterns =>
      let (result, m) := m.evaluateBits (.ofRaw raw) patterns
      (some result, m)
  | .clear => (none, m.clear)

/-- The answers to calls that are made one after another. -/
def performAll (m : Memo) : List Call → List Answer × Memo
  | [] => ([], m)
  | call :: calls =>
      let (answer, m) := m.perform call
      let (answers, m) := m.performAll calls
      (answer :: answers, m)

theorem Sound.perform {m : Memo} (h : m.Sound .ofPatterns) (call : Call) :
    (m.perform call).1 = call.direct ∧ (m.perform call).2.Sound .ofPatterns := by
  cases call with
  | evaluate raw patterns =>
      obtain ⟨hresult, hsound⟩ := h.evaluateBits raw patterns
      exact ⟨congrArg some hresult, hsound⟩
  | clear => exact ⟨rfl, h.clear⟩

theorem Sound.performAll {m : Memo} (h : m.Sound .ofPatterns) (calls : List Call) :
    (m.performAll calls).1 = calls.map Call.direct ∧
      (m.performAll calls).2.Sound .ofPatterns := by
  induction calls generalizing m with
  | nil => exact ⟨rfl, h⟩
  | cons call calls ih =>
      obtain ⟨hanswer, hnext⟩ := h.perform call
      obtain ⟨hanswers, hlast⟩ := ih hnext
      refine ⟨?_, hlast⟩
      rw [List.map_cons, ← hanswer, ← hanswers]
      rfl

/-- A memory of any capacity answers every call as if it remembered nothing. -/
theorem answers_eq_direct (capacity : Nat) (calls : List Call) :
    ((empty capacity).performAll calls).1 = calls.map Call.direct :=
  ((sound_empty capacity).performAll calls).1

end Memo

end LiveSheet
