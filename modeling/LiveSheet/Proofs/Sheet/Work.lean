import LiveSheet.Proofs.Sheet.Batches

/-! # The cells that are computed

Beside each operation that computes cells stands the list of the cells that it computes, in this
order: the list follows the operation through the same states and takes note of the cells that it
finishes. The counter of computed cells counts these notes, whatever the sheet looks like. -/

namespace LiveSheet

open Sheet

/-- A formula can only be computed in a cell that has a record. -/
def Sheet.completeWork (s : Sheet) (c : Coord) : List Coord :=
  if s.store.contains c then [c] else []

namespace Walk

/-- The cells that a run computes. -/
def work (budget : Nat) (w : Walk) : List Coord :=
  match _hstack : w.stack with
  | [] => []
  | .leave c :: rest =>
      w.sheet.completeWork c ++ work budget ({ w with stack := rest }.leaveFormula c)
  | .enter c :: rest =>
      match w.entry c with
      | .settled => work budget { w with stack := rest }
      | .literal raw => c :: work budget ({ w with stack := rest }.settleLiteral c raw)
      | .formula f =>
          match budget with
          | 0 => []
          | budget + 1 => work budget ({ w with stack := rest }.openFormula c f)
termination_by (budget, w.stack.length)
decreasing_by
  · exact Prod.Lex.right _ (by simp [leaveFormula, _hstack])
  · exact Prod.Lex.right _ (by simp [_hstack])
  · exact Prod.Lex.right _ (by simp [settleLiteral, _hstack])
  · exact Prod.Lex.left _ _ (Nat.lt_succ_self _)

section Equations

variable {w : Walk} {c : Coord} {rest : List Visit}

theorem work_of_nil (hstack : w.stack = []) (budget : Nat) : work budget w = [] := by
  rw [work]
  split
  · rfl
  · next hstack' => cases hstack.symm.trans hstack'
  · next hstack' => cases hstack.symm.trans hstack'

theorem work_of_leave (hstack : w.stack = .leave c :: rest) (budget : Nat) :
    work budget w =
      w.sheet.completeWork c ++ work budget ({ w with stack := rest }.leaveFormula c) := by
  rw [work]
  split
  · next hstack' => cases hstack.symm.trans hstack'
  · next hstack' =>
    cases hstack.symm.trans hstack'
    rfl
  · next hstack' => cases hstack.symm.trans hstack'

/-- What a walk does when it enters a cell is decided by what the cell needs. -/
theorem work_of_enter (hstack : w.stack = .enter c :: rest) (budget : Nat) :
    work budget w =
      match w.entry c with
      | .settled => work budget { w with stack := rest }
      | .literal raw => c :: work budget ({ w with stack := rest }.settleLiteral c raw)
      | .formula f =>
          match budget with
          | 0 => []
          | budget + 1 => work budget ({ w with stack := rest }.openFormula c f) := by
  rw [work]
  split
  · next hstack' => cases hstack.symm.trans hstack'
  · next hstack' => cases hstack.symm.trans hstack'
  · next hstack' =>
    cases hstack.symm.trans hstack'
    rfl

theorem work_of_settled (hstack : w.stack = .enter c :: rest) (hentry : w.entry c = .settled)
    (budget : Nat) : work budget w = work budget { w with stack := rest } := by
  rw [work_of_enter hstack, hentry]

theorem work_of_literal (hstack : w.stack = .enter c :: rest) {raw : String}
    (hentry : w.entry c = .literal raw) (budget : Nat) :
    work budget w = c :: work budget ({ w with stack := rest }.settleLiteral c raw) := by
  rw [work_of_enter hstack, hentry]

theorem work_of_formula (hstack : w.stack = .enter c :: rest) {f : Formula}
    (hentry : w.entry c = .formula f) (budget : Nat) :
    work (budget + 1) w = work budget ({ w with stack := rest }.openFormula c f) := by
  rw [work_of_enter hstack, hentry]

/-- A walk stops at a formula that it has no budget for. -/
theorem work_of_exhausted (hstack : w.stack = .enter c :: rest) {f : Formula}
    (hentry : w.entry c = .formula f) : work 0 w = [] := by
  rw [work_of_enter hstack, hentry]

end Equations

/-- What holds of every step and the cell that it computes, if any, holds of a run and the cells
that it computes. -/
theorem Orderly.run_induction {R : Walk → List Coord → Walk → Prop} (refl : ∀ w, R w [] w)
    (trans : ∀ {w₁ w₂ w₃ cells₁ cells₂},
      R w₁ cells₁ w₂ → R w₂ cells₂ w₃ → R w₁ (cells₁ ++ cells₂) w₃)
    (leave : ∀ {w c rest}, w.Orderly [] → w.stack = .leave c :: rest →
      R w [c] ({ w with stack := rest }.leaveFormula c))
    (settled : ∀ {w c rest}, w.Orderly [] → w.stack = .enter c :: rest → w.entry c = .settled →
      R w [] { w with stack := rest })
    (literal : ∀ {w c rest raw}, w.Orderly [] → w.stack = .enter c :: rest →
      w.entry c = .literal raw → R w [c] ({ w with stack := rest }.settleLiteral c raw))
    (formula : ∀ {w c rest f}, w.Orderly [] → w.stack = .enter c :: rest →
      w.entry c = .formula f → R w [] ({ w with stack := rest }.openFormula c f))
    {w : Walk} (h : w.Orderly []) (budget : Nat) : R w (work budget w) (run budget w) := by
  fun_induction run budget w with
  | case1 budget w hstack =>
      rw [work_of_nil hstack]
      exact refl w
  | case2 budget w c rest hstack ih =>
      have hc := h.recorded c ((busy_iff hstack c).mpr (.inl rfl))
      rw [work_of_leave hstack, completeWork, if_pos hc]
      exact trans (leave h hstack) (ih (h.step (.leave hstack)).1)
  | case3 budget w c rest hstack hentry ih =>
      rw [work_of_settled hstack hentry]
      exact trans (settled h hstack hentry) (ih (h.step (.settled hstack hentry)).1)
  | case4 budget w c rest hstack raw hentry ih =>
      rw [work_of_literal hstack hentry]
      exact trans (literal h hstack hentry) (ih (h.step (.literal hstack hentry)).1)
  | case5 w c rest hstack f hentry =>
      rw [work_of_exhausted hstack hentry]
      exact refl w
  | case6 w c rest hstack f hentry budget ih =>
      rw [work_of_formula hstack hentry]
      exact trans (formula h hstack hentry) (ih (h.step (.formula hstack hentry)).1)

end Walk

namespace Sheet

/-- The cells that evaluating a cell computes. -/
def evaluateWork (s : Sheet) (c : Coord) : List Coord :=
  let s := s.synthesize c
  if s.store.contains c then Walk.work s.cellBound (Walk.opening s c) else []

/-- The cells that refreshing a cell computes. -/
def refreshWork (s : Sheet) (c : Coord) : List Coord :=
  if s.stale.contains c then s.evaluateWork c else []

/-- The cells that refreshing some cells one after the other computes. -/
def refreshAllWork (s : Sheet) : List Coord → List Coord
  | [] => []
  | c :: rest => s.refreshWork c ++ (s.refresh c).refreshAllWork rest

/-- The cells that a visit of at most `limit` dependents computes. -/
def visitWork (limit : Nat) (s : Sheet) : List Coord :=
  match limit with
  | 0 => []
  | left + 1 =>
      match h : s.cascade.queue.pop? with
      | none => []
      | some (c, queue) =>
          have := Queue.length_of_pop? h
          let s' := { s with cascade.queue := queue }
          if s'.cascade.visited.contains c then visitWork (left + 1) s'
          else
            { s' with cascade.visited := s'.cascade.visited.insert c }.refreshWork c ++
              visitWork left (s'.visitDependent c)
termination_by (limit, s.cascade.queue.length)

/-- The cells that an edit computes: those that its own cell needs, and then those that the
cascade comes to. -/
def editWork (s : Sheet) (c : Coord) (raw : String) : List Coord :=
  if s.inBounds c then
    (s.overwrite c raw).evaluateWork c ++
      visitWork noLimit (((s.overwrite c raw).evaluate c).restart c)
  else []

/-- The cells that a recalculation computes. -/
def recalculateWork (s : Sheet) : List Coord :=
  s.markAll.refreshAllWork (s.store.formulaCells ++ s.store.coords)

/-- The cells that edits applied together compute. -/
def editManyWork (s : Sheet) (edits : List (Coord × String)) : List Coord :=
  match edits.find? fun (c, _) => !s.inBounds c with
  | some _ => []
  | none => (s.rewrite edits).forget.recalculateWork

theorem editManyWork_eq {s : Sheet} {edits : List (Coord × String)}
    (hedits : ∀ edit ∈ edits, s.inBounds edit.1 = true) :
    s.editManyWork edits = (s.rewrite edits).forget.recalculateWork := by
  have hfind : (edits.find? fun (c, _) => !s.inBounds c) = none := by
    simpa using hedits
  simp only [editManyWork, hfind]

/-! ## The counter -/

theorem computed_finish (s : Sheet) (c : Coord) (value : CellValue) :
    (s.finish c value).counters.computed = s.counters.computed + 1 := rfl

theorem computed_complete (s : Sheet) (active : Std.HashSet Coord) (c : Coord) :
    (s.complete active c).counters.computed =
      s.counters.computed + (s.completeWork c).length := by
  have hcount : ∀ f, (s.countCycle active f).counters.computed = s.counters.computed := by
    intro f
    unfold countCycle
    split <;> rfl
  unfold complete completeWork
  cases hraw : s.store.raw? c with
  | none =>
      have hnone := (Store.contains_eq_false_iff _ _).mpr ((Store.raw?_eq_none_iff _ _).mp hraw)
      simp [hnone]
  | some raw =>
      simp only [contains_of_raw? hraw, if_true, List.length_singleton, completeFormula]
      exact (computed_finish _ c _).trans (congrArg (· + 1) (hcount _))

theorem counters_synthesize (s : Sheet) (c : Coord) :
    (s.synthesize c).counters = s.counters := by
  rcases synthesize_cases s c with ⟨heq, -⟩ | ⟨raw, -, -, heq⟩ <;> rw [heq]

end Sheet

theorem Walk.counters_openFormula (w : Walk) (c : Coord) (f : Formula) :
    (w.openFormula c f).sheet.counters = w.sheet.counters := by
  have hschedule : ∀ (w : Walk) (p : Coord), (w.schedule p).sheet.counters = w.sheet.counters := by
    intro w p
    rcases Walk.schedule_cases w p with ⟨heq, -⟩ | ⟨heq, -⟩ <;> rw [heq]
    exact counters_synthesize w.sheet p
  have hfold : ∀ (cells : List Coord) (w : Walk),
      (cells.foldl Walk.schedule w).sheet.counters = w.sheet.counters := by
    intro cells
    induction cells with
    | nil => exact fun w => rfl
    | cons p rest ih => exact fun w => (ih (w.schedule p)).trans (hschedule w p)
  exact hfold f.references _

/-- A run counts the cells that it computes. -/
theorem Walk.computed_run (budget : Nat) (w : Walk) :
    (run budget w).sheet.counters.computed =
      w.sheet.counters.computed + (work budget w).length := by
  fun_induction run budget w with
  | case1 budget w hstack => rw [work_of_nil hstack, List.length_nil, Nat.add_zero]
  | case2 budget w c rest hstack ih =>
      rw [ih, work_of_leave hstack, List.length_append, ← Nat.add_assoc]
      exact congrArg (· + _) (computed_complete w.sheet w.active c)
  | case3 budget w c rest hstack hentry ih => rw [ih, work_of_settled hstack hentry]
  | case4 budget w c rest hstack raw hentry ih =>
      rw [ih, work_of_literal hstack hentry, List.length_cons, Nat.add_comm _ 1, ← Nat.add_assoc]
      rfl
  | case5 w c rest hstack f hentry =>
      rw [work_of_exhausted hstack hentry, List.length_nil, Nat.add_zero]
  | case6 w c rest hstack f hentry budget ih =>
      rw [ih, work_of_formula hstack hentry, counters_openFormula]

namespace Sheet

variable {s s' : Sheet} {c : Coord} {raw : String}

theorem computed_evaluate (s : Sheet) (c : Coord) :
    (s.evaluate c).counters.computed = s.counters.computed + (s.evaluateWork c).length := by
  unfold evaluate evaluateWork
  simp only
  split
  · rw [← counters_synthesize s c]
    exact Walk.computed_run (s.synthesize c).cellBound (Walk.opening (s.synthesize c) c)
  · rw [counters_synthesize, List.length_nil, Nat.add_zero]

theorem computed_refresh (s : Sheet) (c : Coord) :
    (s.refresh c).counters.computed = s.counters.computed + (s.refreshWork c).length := by
  unfold refresh refreshWork
  split
  · exact computed_evaluate s c
  · rfl

theorem computed_foldl_refresh (s : Sheet) (cells : List Coord) :
    (cells.foldl Sheet.refresh s).counters.computed =
      s.counters.computed + (s.refreshAllWork cells).length := by
  induction cells generalizing s with
  | nil => rfl
  | cons c rest ih =>
      rw [List.foldl_cons, ih, computed_refresh, refreshAllWork, List.length_append,
        Nat.add_assoc]

theorem computed_visitDependents (limit : Nat) (s : Sheet) :
    (visitDependents limit s).2.counters.computed =
      s.counters.computed + (visitWork limit s).length := by
  fun_induction visitWork limit s with
  | case1 s => rw [visitDependents, List.length_nil, Nat.add_zero]
  | case2 s left hpop =>
      rw [visitDependents_of_isEmpty, List.length_nil, Nat.add_zero]
      exact (Queue.isEmpty_iff _).mpr ((Queue.pop?_eq_none_iff _).mp hpop)
  | case3 s left c queue hpop _ s' hvisited ih =>
      rw [visitDependents_of_pop? hpop, if_pos hvisited, ih]
  | case4 s left c queue hpop _ s' hfresh ih =>
      rw [visitDependents_of_pop? hpop, if_neg hfresh, ih, List.length_append, ← Nat.add_assoc]
      exact congrArg (· + _) (computed_refresh _ c)

theorem counters_cascadeStep (s : Sheet) (limit : Nat) :
    (s.cascadeStep limit).2.counters = (visitDependents limit s).2.counters := by
  change (visitDependents limit s).2.closeCascade.counters = _
  unfold closeCascade
  split <;> rfl

/-! ## Reports -/

/-- The report of an edit counts the cells that it has computed. -/
theorem cellsRecomputed_edit {report : Report} (h : s.edit c raw = .ok (report, s')) :
    report.cellsRecomputed = (s.editWork c raw).length := by
  cases hbegin : s.beginEdit c raw with
  | error e =>
      simp only [edit, hbegin] at h
      cases h
  | ok begun =>
      rw [edit_of_beginEdit hbegin] at h
      obtain ⟨hc, rfl⟩ := beginEdit_eq_ok hbegin
      cases h
      rw [editWork, if_pos hc, List.length_append]
      change
        ((((s.overwrite c raw).evaluate c).restart c).cascadeStep noLimit).2.counters.computed -
          s.counters.computed = _
      rw [counters_cascadeStep, computed_visitDependents]
      have hcell : (((s.overwrite c raw).evaluate c).restart c).counters.computed =
          s.counters.computed + ((s.overwrite c raw).evaluateWork c).length :=
        computed_evaluate (s.overwrite c raw) c
      omega

theorem cellsRecomputed_recalculateAll (s : Sheet) :
    s.recalculateAll.1.cellsRecomputed = s.recalculateWork.length := by
  have hcount : s.recalculateAll.2.counters.computed =
      s.counters.computed + s.recalculateWork.length :=
    computed_foldl_refresh s.markAll (s.store.formulaCells ++ s.store.coords)
  change s.recalculateAll.2.counters.computed - s.counters.computed = _
  omega

end Sheet

end LiveSheet
