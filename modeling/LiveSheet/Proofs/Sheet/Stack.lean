import LiveSheet.Proofs.Sheet.Exploration

/-! # What a walk rests on

The stack of a walk tells all that has been begun: a cell is active as long as it is to be left, and
from the bottom of the stack to its top each active formula refers to the next. When a formula is
computed at last, everything it refers to is active, blank, or a result. So it would come out the
same if no other value could be read at all. This does not depend on what the sheet looked like when
the walk was opened. -/

namespace LiveSheet

namespace Sheet

variable {s : Sheet} {p : Coord} {cells : List Coord} {active : Std.HashSet Coord}

/-- The value of a cell, if it is a result. A value that waits to be computed or is marked as stale
is none, and a cell is not blank if the template has text for it. -/
def result? (s : Sheet) (c : Coord) : Option CellValue :=
  match s.store.get? c with
  | some r => if r.value.isPending || s.stale.contains c then none else some r.value
  | none => if (s.templateText? c).isSome then none else some .empty

/-- The operands of references as `operandsOnto` finds them, but from results only. There are none
if the value of another cell would have to be read. -/
def resultsOnto? (s : Sheet) (active : Std.HashSet Coord) (done : List Float) :
    List Coord → Option (Except CellError (List Float))
  | [] => some (.ok done.reverse)
  | p :: rest =>
      if active.contains p then some (.error .circular)
      else if !s.inBounds p then some (.error .invalidReference)
      else match s.result? p with
        | none => none
        | some value =>
            match value.operand with
            | .error e => some (.error e)
            | .ok x => s.resultsOnto? active (x :: done) rest

/-- The operands of a formula as `operands` finds them, but from results only. -/
def results? (s : Sheet) (active : Std.HashSet Coord) (f : Formula) :
    Option (Except CellError (List Float)) :=
  match f.referenceError? with
  | some e => some (.error e)
  | none => s.resultsOnto? active [] f.references

theorem result?_eq (h : s.Current p ∨ s.text? p = none) : s.result? p = some (s.store.value p) := by
  unfold result?
  rcases h with ⟨r, hr, hpending, hstale⟩ | hblank
  · rw [Std.HashSet.mem_iff_contains] at hstale
    rw [hr, Store.value_of_get? hr]
    simp [CellValue.isPending, hpending, hstale]
  · have hnone := get?_eq_none_of_text? hblank
    rw [text?_of_get?_eq_none hnone] at hblank
    rw [hnone, Store.value_of_get?_eq_none hnone, hblank]
    rfl

/-- No more than results are read if every reference is active, a result or blank. -/
theorem resultsOnto?_eq (h : ∀ p ∈ cells, p ∈ active ∨ s.Current p ∨ s.text? p = none)
    (done : List Float) :
    s.resultsOnto? active done cells = some (s.operandsOnto active done cells) := by
  induction cells generalizing done with
  | nil => rfl
  | cons p rest ih =>
      have hrest : ∀ q ∈ rest, q ∈ active ∨ s.Current q ∨ s.text? q = none := fun q hq =>
        h q (List.mem_cons_of_mem p hq)
      rw [resultsOnto?, operandsOnto]
      split
      · rfl
      · next hactive =>
        have hp : s.Current p ∨ s.text? p = none :=
          (h p List.mem_cons_self).resolve_left (mt Std.HashSet.mem_iff_contains.mp hactive)
        split
        · rfl
        · rw [result?_eq hp]
          cases hoperand : (s.store.value p).operand with
          | error e => simp only [hoperand]
          | ok x =>
              simp only [hoperand]
              exact ih hrest (x :: done)

theorem results?_eq {f : Formula}
    (h : ∀ p ∈ f.references, p ∈ active ∨ s.Current p ∨ s.text? p = none) :
    s.results? active f = some (s.operands active f) := by
  unfold results? operands
  cases f.referenceError? with
  | some e => rfl
  | none => exact resultsOnto?_eq h []

end Sheet

namespace Walk

open Sheet

variable {w : Walk} {c : Coord} {rest : List Visit}

theorem count_path (stack : List Visit) (c : Coord) :
    stack.count (.leave c) = (path stack).count c := by
  induction stack with
  | nil => rfl
  | cons v rest ih => cases v <;> simp [path, List.count_cons, ih]

/-- The active cells are those to be left, each of them once. -/
theorem Orderly.count_leave (h : w.Orderly []) (c : Coord) :
    w.stack.count (.leave c) = if c ∈ w.active then 1 else 0 := by
  rw [count_path, h.nodup.count]
  exact if_congr (h.mem_active_iff c).symm rfl rfl

theorem Chained.isChain {t : Writing} {stack : List Visit} (h : Chained t stack) :
    (path stack).IsChain fun c p => t.Refers p c := by
  induction stack with
  | nil => exact .nil
  | cons v rest ih =>
      cases v with
      | enter p => exact ih h.2
      | leave c => exact List.isChain_cons.mpr ⟨h.1, ih h.2⟩

/-- From the bottom of the stack to its top every active formula refers to the next. -/
theorem Orderly.isChain (h : w.Orderly []) :
    (path w.stack).reverse.IsChain w.sheet.written.Refers := by
  rw [List.isChain_reverse]
  refine h.chained.isChain.imp_of_mem_imp fun c p _ hp hpc => ?_
  exact (refers_written_iff (h.recorded p (.inr ((mem_path_iff _ _).mp hp)))).mpr hpc

theorem current_countCycle_iff (s : Sheet) (active : Std.HashSet Coord) (f : Formula) (c : Coord) :
    (s.countCycle active f).Current c ↔ s.Current c := by
  unfold countCycle
  split <;> exact Iff.rfl

theorem text?_countCycle (s : Sheet) (active : Std.HashSet Coord) (f : Formula) :
    (s.countCycle active f).text? = s.text? := by
  unfold countCycle
  split <;> rfl

/-- What a formula that comes to be computed refers to is active, blank or a result. -/
theorem Orderly.operands_ready (h : w.Orderly []) (hstack : w.stack = .leave c :: rest) :
    ∃ raw, w.sheet.store.raw? c = some raw ∧ Formula.isFormula raw = true ∧
      ∀ p ∈ (Formula.ofRaw raw).references, w.Ready p := by
  obtain ⟨raw, hraw, hformula⟩ := h.exists_formula hstack
  refine ⟨raw, hraw, hformula, fun p hp => h.ready hstack ?_⟩
  exact (Writing.refers_iff (text?_of_raw? hraw) hformula).mpr hp

/-- A walk that is opened for a formula enters it, even if it is up to date. -/
theorem entry_opening {s : Sheet} {raw : String} (hraw : s.store.raw? c = some raw)
    (hformula : Formula.isFormula raw = true) :
    (opening s c).entry c = .formula (.ofRaw raw) := by
  have hactive : (opening s c).active.contains c = false := Std.HashSet.contains_empty
  have hrefresh : (opening s c).sheet.needsRefresh c = true :=
    needsRefresh_eq_true_iff.mpr ⟨contains_of_raw? hraw, fun hcurrent =>
      ((current_opening_iff s c c).mp hcurrent).1 rfl⟩
  have hraw' : (opening s c).sheet.store.raw? c = some raw := hraw
  simp only [entry, hactive, hrefresh, hraw', hformula]
  rfl

end Walk

namespace Sheet

/-- In every state of a sheet, take the walk that evaluates a cell with a record or template text
after any number of steps. The active cells are those to be left, each of them once, and from the
bottom of the stack to its top the formula of each refers to the next. When a formula is to be
computed, every cell it refers to is active, or has neither a record nor template text, or has a
record whose value is neither stale nor pending. So its operands come out the same from results
only. The evaluation consists of such steps, and in a store that counts its records it takes them
until the stack is empty. -/
theorem evaluation_rests_on_results (s : Sheet) (c : Coord) (hc : s.text? c ≠ none) :
    (∀ w, Relation.ReflTransGen Walk.Step (Walk.opening (s.synthesize c) c) w →
      (∀ d, w.stack.count (.leave d) = if d ∈ w.active then 1 else 0) ∧
      (Walk.path w.stack).reverse.IsChain w.sheet.written.Refers ∧
      ∀ d rest, w.stack = .leave d :: rest →
        ∃ raw, w.sheet.store.raw? d = some raw ∧ Formula.isFormula raw = true ∧
          (∀ p ∈ (Formula.ofRaw raw).references, p ∈ w.active ∨
            (w.sheet.store.get? p = none ∧ w.sheet.templateText? p = none) ∨
            ∃ r, w.sheet.store.get? p = some r ∧ p ∉ w.sheet.stale ∧ r.value ≠ .pending) ∧
          let counted := w.sheet.countCycle w.active (.ofRaw raw)
          counted.results? w.active (.ofRaw raw) =
            some (counted.operands w.active (.ofRaw raw))) ∧
    ∃ w, Relation.ReflTransGen Walk.Step (Walk.opening (s.synthesize c) c) w ∧
      w.sheet = s.evaluate c ∧ (s.store.Tidy → w.stack = []) := by
  have hwritten := contains_synthesize_self hc
  have hopening := orderly_opening hwritten
  refine ⟨fun w hsteps => ?_, _, Walk.reflTransGen_run (s.synthesize c).cellBound _, ?_, ?_⟩
  · have h := (hopening.steps hsteps).1
    refine ⟨h.count_leave, h.isChain, fun d rest hstack => ?_⟩
    obtain ⟨raw, hraw, hformula, hready⟩ := h.operands_ready hstack
    refine ⟨raw, hraw, hformula, fun p hp => ?_, results?_eq fun p hp => ?_⟩
    · rcases hready p hp with hactive | ⟨r, hr, hpending, hstale⟩ | hblank
      · exact .inl hactive
      · exact .inr (.inr ⟨r, hr, hstale, hpending⟩)
      · have hnone := get?_eq_none_of_text? hblank
        exact .inr (.inl ⟨hnone, (text?_of_get?_eq_none hnone).symm.trans hblank⟩)
    · rw [Walk.current_countCycle_iff, Walk.text?_countCycle]
      exact hready p hp
  · unfold evaluate
    rw [if_pos hwritten]
    rfl
  · exact fun hstore => (run_eq_evaluate hstore hc (Nat.le_refl _)).1

/-- A formula that refers to a blank cell is left right after it has been entered. -/
theorem evaluation_rests_on_blank :
    let s : Sheet := { Sheet.fresh { totalRows := 1, totalCols := 2 } .blank with
      store := (∅ : Store).setRaw ⟨0, 0⟩ "=B1" }
    s.text? ⟨0, 0⟩ = some "=B1" ∧
      ∃ w, Relation.ReflTransGen Walk.Step (Walk.opening (s.synthesize ⟨0, 0⟩) ⟨0, 0⟩) w ∧
        w.stack = [.leave ⟨0, 0⟩] ∧ ⟨0, 0⟩ ∈ w.active ∧
        ∃ raw, w.sheet.store.raw? ⟨0, 0⟩ = some raw ∧
          ∃ inputs, (w.sheet.countCycle w.active (.ofRaw raw)).results? w.active (.ofRaw raw) =
            some inputs := by
  intro s
  have hraw : s.store.raw? ⟨0, 0⟩ = some "=B1" := by
    rw [Store.raw?_setRaw, if_pos rfl]
  have hblank : s.store.get? ⟨0, 1⟩ = none := by
    rw [Store.get?_setRaw, if_neg (by decide), Store.get?_empty]
  have hblanktext : (Walk.opening s ⟨0, 0⟩).sheet.text? ⟨0, 1⟩ = none :=
    text?_of_get?_eq_none hblank
  have hreferences : (Formula.ofRaw "=B1").references = [⟨0, 1⟩] := by decide +kernel
  have hsynthesize : s.synthesize ⟨0, 0⟩ = s := if_pos (contains_of_raw? hraw)
  have htext := text?_of_raw? hraw
  obtain ⟨hinvariant, -⟩ :=
    evaluation_rests_on_results s ⟨0, 0⟩ (htext ▸ Option.some_ne_none _)
  rw [hsynthesize] at hinvariant ⊢
  have hstep : Walk.Step (Walk.opening s ⟨0, 0⟩)
      ({ Walk.opening s ⟨0, 0⟩ with stack := [] }.openFormula ⟨0, 0⟩ (.ofRaw "=B1")) :=
    .formula rfl (Walk.entry_opening hraw rfl)
  have hopened : ({ Walk.opening s ⟨0, 0⟩ with stack := [] }.openFormula ⟨0, 0⟩
      (.ofRaw "=B1")).stack = [.leave ⟨0, 0⟩] := by
    rw [Walk.openFormula, hreferences, List.foldl_cons, List.foldl_nil]
    rcases Walk.schedule_cases _ ⟨0, 1⟩ with ⟨heq, -⟩ | ⟨-, hcontains, -⟩
    · rw [heq]
    · refine (text?_ne_none_of_contains hcontains ?_).elim
      rw [(extends_synthesize _ _).text?_eq]
      exact hblanktext
  obtain ⟨hcount, -, hleave⟩ := hinvariant _ (.single hstep)
  obtain ⟨raw, hraw, -, -, hresults⟩ := hleave _ _ hopened
  refine ⟨htext, _, .single hstep, hopened, ?_, raw, hraw, _, hresults⟩
  have hone := hcount ⟨0, 0⟩
  rw [hopened] at hone
  by_contra hactive
  rw [if_neg hactive] at hone
  exact absurd hone (by decide)

end Sheet

end LiveSheet
