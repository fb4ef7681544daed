import LiveSheet.Proofs.Sheet.Draining
import Mathlib.Algebra.Order.Ring.Nat

/-! # Steps of any size

A step of the cascade that has used up its limit stops where a greater limit would have gone on,
and one that has emptied the queue finds nothing more whatever its limit. So the steps that empty
a queue leave the same sheet, however the work was divided among them. -/

namespace LiveSheet.Sheet

variable {s : Sheet}

/-! ## Two limits -/

theorem visitDependents_of_isEmpty (limit : Nat) (h : s.cascade.queue.isEmpty = true) :
    visitDependents limit s = (limit, s) := by
  have hpop : s.cascade.queue.pop? = none :=
    (Queue.pop?_eq_none_iff _).mpr ((Queue.isEmpty_iff _).mp h)
  cases limit with
  | zero => rw [visitDependents]
  | succ left =>
      rw [visitDependents]
      split
      · rfl
      · next c queue hsome => cases hpop.symm.trans hsome

/-- The next cell of the queue is passed over if it has been visited. -/
theorem visitDependents_of_pop? {c : Coord} {queue : Queue Coord}
    (hpop : s.cascade.queue.pop? = some (c, queue)) (left : Nat) :
    visitDependents (left + 1) s =
      if s.cascade.visited.contains c then
        visitDependents (left + 1) { s with cascade.queue := queue }
      else visitDependents left ({ s with cascade.queue := queue }.visitDependent c) := by
  rw [visitDependents]
  split
  · next hnone => cases hpop.symm.trans hnone
  · next c' queue' hsome =>
    cases hpop.symm.trans hsome
    rfl

/-- A greater limit goes on where the smaller one has stopped. -/
theorem visitDependents_add (a b : Nat) (s : Sheet) :
    visitDependents (a + b) s =
      visitDependents ((visitDependents a s).1 + b) (visitDependents a s).2 := by
  fun_induction visitDependents a s with
  | case1 s => rfl
  | case2 s left hpop => rfl
  | case3 s left c queue hpop _ s' hvisited ih =>
      rw [← ih, Nat.succ_eq_add_one, Nat.add_right_comm, visitDependents_of_pop? hpop]
      exact if_pos hvisited
  | case4 s left c queue hpop _ s' hfresh ih =>
      rw [← ih, Nat.succ_eq_add_one, Nat.add_right_comm, visitDependents_of_pop? hpop]
      exact if_neg hfresh

theorem visitDependents_fst_le (limit : Nat) (s : Sheet) :
    (visitDependents limit s).1 ≤ limit := by
  fun_induction visitDependents limit s with
  | case1 => exact Nat.le_refl _
  | case2 => exact Nat.le_refl _
  | case3 s left c queue _ _ s' _ ih => exact ih
  | case4 s left c queue _ _ s' _ ih => exact Nat.le_succ_of_le ih

/-- A limit is used up unless the queue is emptied. -/
theorem visitDependents_fst_eq_zero (limit : Nat) (s : Sheet) :
    (visitDependents limit s).1 = 0 ∨
      (visitDependents limit s).2.cascade.queue.isEmpty = true := by
  fun_induction visitDependents limit s with
  | case1 => exact .inl rfl
  | case2 s left hpop =>
      exact .inr ((Queue.isEmpty_iff _).mpr ((Queue.pop?_eq_none_iff _).mp hpop))
  | case3 s left c queue _ _ s' _ ih => exact ih
  | case4 s left c queue _ _ s' _ ih => exact ih

theorem closeCascade_of_isEmpty (h : s.cascade.queue.isEmpty = true) :
    s.closeCascade = { s with cascade.visited := ∅ } := by
  rw [closeCascade, if_pos h]

theorem closeCascade_of_not_isEmpty (h : ¬s.cascade.queue.isEmpty = true) :
    s.closeCascade = s := by
  rw [closeCascade, if_neg h]

theorem queue_closeCascade (s : Sheet) : s.closeCascade.cascade.queue = s.cascade.queue := by
  unfold closeCascade
  split <;> rfl

theorem closeCascade_closeCascade (s : Sheet) : s.closeCascade.closeCascade = s.closeCascade := by
  by_cases h : s.cascade.queue.isEmpty = true
  · rw [closeCascade_of_isEmpty (queue_closeCascade s ▸ h), closeCascade_of_isEmpty h]
  · rw [closeCascade_of_not_isEmpty h, closeCascade_of_not_isEmpty h]

theorem cascadeStep_eq (s : Sheet) (limit : Nat) :
    s.cascadeStep limit =
      (limit - (visitDependents limit s).1, (visitDependents limit s).2.closeCascade) := rfl

/-- With nothing left to visit a step only closes the cascade. -/
theorem cascadeStep_of_isEmpty (limit : Nat) (h : s.cascade.queue.isEmpty = true) :
    s.cascadeStep limit = (0, s.closeCascade) := by
  rw [cascadeStep_eq, visitDependents_of_isEmpty limit h, Nat.sub_self]

/-- Two steps leave the sheet that one step with both limits leaves, and visit as many cells. -/
theorem cascadeStep_add (s : Sheet) (a b : Nat) :
    ((s.cascadeStep a).2.cascadeStep b).2 = (s.cascadeStep (a + b)).2 ∧
      (s.cascadeStep a).1 + ((s.cascadeStep a).2.cascadeStep b).1 = (s.cascadeStep (a + b)).1 := by
  have hle := visitDependents_fst_le a s
  have hlimit := visitDependents_fst_eq_zero a s
  rw [cascadeStep_eq s a, cascadeStep_eq s (a + b), visitDependents_add]
  generalize visitDependents a s = stopped at *
  obtain ⟨left, s₁⟩ := stopped
  simp only at hle hlimit ⊢
  by_cases hempty : s₁.cascade.queue.isEmpty = true
  · rw [cascadeStep_of_isEmpty b (queue_closeCascade s₁ ▸ hempty), closeCascade_closeCascade,
      visitDependents_of_isEmpty _ hempty]
    refine ⟨rfl, ?_⟩
    simp only
    omega
  · have hleft : left = 0 := hlimit.resolve_right hempty
    have hle' := visitDependents_fst_le b s₁
    rw [closeCascade_of_not_isEmpty hempty, hleft, Nat.zero_add, cascadeStep_eq]
    refine ⟨rfl, ?_⟩
    simp only
    omega

/-! ## Many limits -/

/-- Advances the cascade step by step with the given limits. -/
def cascadeAll (s : Sheet) (limits : List Nat) : Sheet :=
  limits.foldl (fun s limit => (s.cascadeStep limit).2) s

/-- However the work is divided, in the end it is that of one step. -/
theorem closeCascade_cascadeAll (s : Sheet) (limits : List Nat) :
    (s.cascadeAll limits).closeCascade = (s.cascadeStep limits.sum).2 := by
  induction limits generalizing s with
  | nil =>
      rw [List.sum_nil, cascadeStep_eq, visitDependents]
      rfl
  | cons limit rest ih =>
      rw [List.sum_cons, ← (s.cascadeStep_add limit rest.sum).1]
      exact ih (s.cascadeStep limit).2

theorem cascadePending_closeCascade (s : Sheet) :
    s.closeCascade.cascadePending = s.cascadePending := by
  rw [cascadePending, cascadePending, queue_closeCascade]

/-- A step that leaves nothing to do could have had any greater limit. -/
theorem cascadeStep_of_le {a b : Nat} (hab : a ≤ b)
    (ha : (s.cascadeStep a).2.cascadePending = false) :
    (s.cascadeStep b).2 = (s.cascadeStep a).2 := by
  have hempty : (s.cascadeStep a).2.cascade.queue.isEmpty = true := by
    rwa [cascadePending, Bool.not_eq_false'] at ha
  rw [← Nat.add_sub_cancel' hab, ← (s.cascadeStep_add a (b - a)).1,
    cascadeStep_of_isEmpty _ hempty]
  exact closeCascade_closeCascade (visitDependents a s).2

theorem cascadeStep_eq_of_drained {a b : Nat} (ha : (s.cascadeStep a).2.cascadePending = false)
    (hb : (s.cascadeStep b).2.cascadePending = false) :
    (s.cascadeStep a).2 = (s.cascadeStep b).2 := by
  rcases Nat.le_total a b with hab | hba
  · exact (cascadeStep_of_le hab ha).symm
  · exact cascadeStep_of_le hba hb

theorem cascadePending_cascadeStep_of_sum_le {limits : List Nat} {limit : Nat}
    (hsum : limits.sum ≤ limit) (hlimits : (s.cascadeAll limits).cascadePending = false) :
    (s.cascadeStep limit).2.cascadePending = false := by
  have hdrained : (s.cascadeStep limits.sum).2.cascadePending = false := by
    rw [← closeCascade_cascadeAll, cascadePending_closeCascade, hlimits]
  rw [cascadeStep_of_le hsum hdrained, hdrained]

/-- Steps that leave nothing to do leave the sheet that one such step leaves. -/
theorem closeCascade_of_drained {limits : List Nat} {limit : Nat}
    (hlimits : (s.cascadeAll limits).cascadePending = false)
    (hlimit : (s.cascadeStep limit).2.cascadePending = false) :
    (s.cascadeAll limits).closeCascade = (s.cascadeStep limit).2 := by
  rw [closeCascade_cascadeAll,
    cascadeStep_eq_of_drained (cascadePending_cascadeStep_of_sum_le (Nat.le_refl _) hlimits) hlimit]

theorem edit_of_beginEdit {begun : Sheet} {c : Coord} {raw : String}
    (h : s.beginEdit c raw = .ok begun) :
    s.edit c raw =
      .ok ((begun.cascadeStep noLimit).2.reportSince s.counters,
        (begun.cascadeStep noLimit).2) := by
  simp only [edit, h]

/-- More steps than the grid has cells leave nothing to do, as long as none of them is empty. -/
theorem Furnished.cascadePending_cascadeAll (h : s.Furnished) {limits : List Nat}
    (hpos : ∀ limit ∈ limits, 0 < limit)
    (hlength : s.settings.totalRows * s.settings.totalCols < limits.length) :
    (s.cascadeAll limits).cascadePending = false := by
  have hsum : limits.length ≤ limits.sum := List.length_le_sum_of_one_le limits hpos
  rw [← cascadePending_closeCascade, closeCascade_cascadeAll]
  exact h.cascadePending_cascadeStep (Nat.lt_of_lt_of_le hlength hsum)

end LiveSheet.Sheet
