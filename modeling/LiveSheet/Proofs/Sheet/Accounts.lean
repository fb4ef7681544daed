import LiveSheet.Proofs.Sheet.Findings

/-! # The accounts of a sheet

What an operation computes and counts adds up from what its evaluations compute and count. The
cells that one evaluation has computed refer to nothing that a later one computes, so a cycle
among all the computed cells lies among those of one evaluation. -/

namespace LiveSheet.Sheet

variable {s s' s₁ s₂ : Sheet} {c d : Coord} {raw : String} {cells cells₁ cells₂ : List Coord}

/-- From `s` to `s'` exactly the given cells are computed, and a cycle is counted if and only if
there is one among them. -/
structure Accounts (s : Sheet) (cells : List Coord) (s' : Sheet) : Prop
    extends Computes s cells s' where
  cycles_le : s.counters.cycles ≤ s'.counters.cycles
  cycles_lt_iff : s.counters.cycles < s'.counters.cycles ↔ s.text?.CycleWithin {c | c ∈ cells}
  settled : ∀ c ∈ cells, ∀ p, s.text?.Refers c p → s'.Current p ∨ s.text? p = none

namespace Accounts

theorem of_computes_nil (h : Computes s [] s') (hcounters : s'.counters = s.counters) :
    Accounts s [] s' where
  toComputes := h
  cycles_le := Nat.le_of_eq (congrArg Counters.cycles hcounters.symm)
  cycles_lt_iff := by
    refine iff_of_false (hcounters ▸ Nat.lt_irrefl _) fun hcycle => ?_
    obtain ⟨c, hc, -⟩ := hcycle.exists_refers
    exact List.not_mem_nil hc
  settled c hc := (List.not_mem_nil hc).elim

theorem refl (s : Sheet) : Accounts s [] s :=
  .of_computes_nil (.refl s) rfl

theorem trans (h₁ : Accounts s cells₁ s₁) (h₂ : Accounts s₁ cells₂ s₂) :
    Accounts s (cells₁ ++ cells₂) s₂ where
  toComputes := h₁.toComputes.trans h₂.toComputes
  cycles_le := h₁.cycles_le.trans h₂.cycles_le
  cycles_lt_iff := by
    have hle₁ := h₁.cycles_le
    have hle₂ := h₂.cycles_le
    rw [h₁.cycleWithin_append_iff h₂.toComputes h₁.settled, ← h₁.cycles_lt_iff,
      ← h₂.cycles_lt_iff]
    omega
  settled := h₁.done_append h₂.toComputes h₁.settled h₂.settled

/-- What the records say afterwards decides whether a cycle has been counted. -/
theorem cycles_lt_iff_written (h : Accounts s cells s') :
    s.counters.cycles < s'.counters.cycles ↔ s'.written.CycleWithin {c | c ∈ cells} := by
  rw [h.cycles_lt_iff]
  refine Writing.cycleWithin_congr fun c hc => ?_
  rw [written_eq_text? (h.current hc).contains, h.text?_eq]

end Accounts

/-! ## Evaluations -/

/-- The run of an evaluation, from its first step on. -/
theorem Sound.accounts_run (h : s.Sound idle)
    (hknown : ∀ d, s.store.contains d = true → d ∈ s.stale ∨ s.Current d ∨ d = c)
    (hc : s.store.contains c = true) :
    Accounts (Walk.opening s c).sheet (Walk.work s.cellBound (Walk.opening s c))
      (Walk.run s.cellBound (Walk.opening s c)).sheet := by
  have hopening := h.inv_opening hknown hc
  have hfinds := hopening.finds_run s.cellBound
  have hsound := (h.evaluates_run hknown hc).sound
  obtain ⟨hinv, -⟩ := hopening.steps (Walk.reflTransGen_run s.cellBound _)
  have hactive := hinv.not_mem_active_of_nil
    (hopening.stack_run_of_tidy h.tidy (Nat.le_refl s.cellBound))
  have htext := hfinds.computes.text?_eq
  refine ⟨hfinds.computes, hfinds.cycles_le, ?_, ?_⟩
  · constructor
    · intro hlt
      exact (hfinds.counted hlt).mono fun d hd => hd.resolve_right (hactive d)
    · intro hcycle
      refine Nat.lt_of_le_of_ne hfinds.cycles_le fun heq => ?_
      exact hfinds.acyclic heq.symm hcycle
  · intro d hd p hdp
    rw [← htext] at hdp ⊢
    rcases hsound.closed d (hfinds.computes.current hd) p hdp with hp | hp | hp
    · exact .inl hp
    · exact hp.elim
    · exact .inr hp

/-- A cell that has to be computed may be marked as stale, which changes nothing. -/
theorem Accounts.of_opening (h : Accounts (Walk.opening s c).sheet cells s')
    (hdue : ¬s.Current c) : Accounts s cells s' := by
  have hcurrent : ∀ d, (Walk.opening s c).sheet.Current d ↔ s.Current d := by
    intro d
    rw [Walk.current_opening_iff, and_iff_right_iff_imp]
    rintro hd rfl
    exact hdue hd
  refine ⟨⟨h.nodup, fun d hd => ?_, h.text?_eq, fun d => ?_, h.get?_eq, h.precedents_iff⟩,
    h.cycles_le, h.cycles_lt_iff, h.settled⟩
  · exact mt (hcurrent d).mpr (h.due d hd)
  · rw [h.current_iff, hcurrent]

theorem accounts_synthesize (s : Sheet) (c : Coord) : Accounts s [] (s.synthesize c) :=
  .of_computes_nil (computes_synthesize s c) (counters_synthesize s c)

/-- An evaluation of a cell that is not current. -/
theorem Sound.accounts_evaluate (h : s.Sound idle)
    (hknown : ∀ d, s.store.contains d = true → d ∈ s.stale ∨ s.Current d ∨ d = c)
    (hdue : ¬s.Current c) : Accounts s (s.evaluateWork c) (s.evaluate c) := by
  have hsynthesize := accounts_synthesize s c
  unfold evaluateWork Sheet.evaluate
  simp only
  split
  · next hc =>
    have hrun := (h.synthesize c).accounts_run (known_synthesize hknown) hc
    exact hsynthesize.trans (hrun.of_opening (mt (current_synthesize_iff s c c).mp hdue))
  · exact hsynthesize

/-- An evaluation counts a cycle if and only if there is one among the cells that it computes. -/
theorem Sound.cycles_evaluate (h : s.Sound idle)
    (hknown : ∀ d, s.store.contains d = true → d ∈ s.stale ∨ s.Current d ∨ d = c) :
    s.counters.cycles < (s.evaluate c).counters.cycles ↔
      (s.evaluate c).written.CycleWithin {d | d ∈ s.evaluateWork c} := by
  rw [← counters_synthesize s c]
  unfold evaluateWork Sheet.evaluate
  simp only
  split
  · next hc =>
    exact ((h.synthesize c).accounts_run (known_synthesize hknown) hc).cycles_lt_iff_written
  · exact (Accounts.refl (s.synthesize c)).cycles_lt_iff_written

theorem Sound.accounts_refresh (h : s.Sound idle)
    (hknown : ∀ d, s.store.contains d = true → d ∈ s.stale ∨ s.Current d) (c : Coord) :
    Accounts s (s.refreshWork c) (s.refresh c) := by
  unfold refreshWork Sheet.refresh
  split
  · next hstale =>
    refine h.accounts_evaluate (fun d hd => (hknown d hd).imp_right .inl) ?_
    rintro ⟨r, -, -, hfresh⟩
    exact hfresh (Std.HashSet.mem_iff_contains.mpr hstale)
  · exact .refl s

theorem Sound.accounts_foldl_refresh (h : s.Sound idle)
    (hknown : ∀ d, s.store.contains d = true → d ∈ s.stale ∨ s.Current d) (cells : List Coord) :
    Accounts s (s.refreshAllWork cells) (cells.foldl Sheet.refresh s) := by
  induction cells generalizing s with
  | nil => exact .refl s
  | cons c rest ih =>
      have hev := h.refresh hknown c
      exact (h.accounts_refresh hknown c).trans (ih hev.sound hev.known)

/-! ## Edits -/

/-- The cascade plays no part in the accounts. -/
theorem Accounts.ignoring {k : Cascade} (h : Accounts { s with cascade := k } cells s') :
    Accounts s cells s' :=
  ⟨⟨h.nodup, h.due, h.text?_eq, h.current_iff, h.get?_eq, h.precedents_iff⟩, h.cycles_le,
    h.cycles_lt_iff, h.settled⟩

theorem Furnished.accounts_visitDependents (h : s.Furnished) (limit : Nat) :
    Accounts s (visitWork limit s) (visitDependents limit s).2 := by
  fun_induction visitWork limit s with
  | case1 s =>
      rw [visitDependents]
      exact .refl s
  | case2 s left hpop =>
      rw [visitDependents_of_isEmpty]
      · exact .refl s
      · exact (Queue.isEmpty_iff _).mpr ((Queue.pop?_eq_none_iff _).mp hpop)
  | case3 s left c queue hpop _ s' hvisited ih =>
      rw [visitDependents_of_pop? hpop, if_pos hvisited]
      exact (ih (h.chore (chore_skip hpop s.cascade.visited)).1).ignoring
  | case4 s left c queue hpop _ s' hfresh ih =>
      rw [visitDependents_of_pop? hpop, if_neg hfresh]
      have hmarked := (h.chore (chore_skip hpop (s.cascade.visited.insert c))).1
      have hrefresh := hmarked.sound.accounts_refresh hmarked.known c
      have hvisit := ih (h.upkeep (upkeep_visitDependent hpop)).1
      rw [Coherent.visitDependent_eq] at hvisit ⊢
      exact hrefresh.ignoring.trans hvisit.ignoring

theorem Accounts.closeCascade (h : Accounts s cells s') : Accounts s cells s'.closeCascade := by
  by_cases hempty : s'.cascade.queue.isEmpty = true
  · rw [closeCascade_of_isEmpty hempty]
    exact ⟨⟨h.nodup, h.due, h.text?_eq, h.current_iff, h.get?_eq, h.precedents_iff⟩, h.cycles_le,
      h.cycles_lt_iff, h.settled⟩
  · rwa [closeCascade_of_not_isEmpty hempty]

/-- An edit is accounted for from where its text has been written and nothing been computed. -/
theorem Coherent.accounts_edit (h : s.Coherent) (hs : s.Furnished) {report : Report}
    (hs' : s.edit c raw = .ok (report, s')) :
    Accounts (s.overwrite c raw) (s.editWork c raw) s' := by
  obtain ⟨begun, hbegin, rfl⟩ := edit_eq_ok hs'
  have hfurnished := (h.revises_beginEdit hs hbegin).furnished
  obtain ⟨hc, rfl⟩ := beginEdit_eq_ok hbegin
  have hdue : ¬(s.overwrite c raw).Current c := fun hcurrent =>
    ((h.current_overwrite_iff c).mp hcurrent).1 rfl
  have hevaluate := (h.sound_overwrite hc).accounts_evaluate (h.known_overwrite raw) hdue
  have hvisit := (hfurnished.accounts_visitDependents noLimit).closeCascade
  rw [editWork, if_pos hc]
  exact hevaluate.trans hvisit.ignoring

/-! ## Recalculations -/

theorem accounts_recalculateAll (htidy : s.store.Tidy) (hsound : s.markAll.Sound idle) :
    Accounts s.markAll s.recalculateWork s.recalculateAll.2 :=
  hsound.accounts_foldl_refresh (fun _ hd => .inl (mem_stale_markAll htidy hd)) _

/-- A recalculation computes every record. -/
theorem mem_recalculateWork_iff (htidy : s.store.Tidy) (hsound : s.markAll.Sound idle)
    (c : Coord) : c ∈ s.recalculateWork ↔ s.recalculateAll.2.store.contains c = true := by
  rw [(accounts_recalculateAll htidy hsound).mem_iff, and_iff_left (not_current_markAll htidy c)]
  refine ⟨Current.contains, fun hc => ?_⟩
  have hkeeps := keeps_recalculateAll htidy hsound
  exact (hkeeps.coherent.known hc).resolve_left (not_stale_recalculateAll htidy hsound c)

/-- A recalculation counts a cycle if and only if the records have one. -/
theorem cycles_recalculateAll (htidy : s.store.Tidy) (hsound : s.markAll.Sound idle) :
    s.counters.cycles < s.recalculateAll.2.counters.cycles ↔
      ∃ c, s.recalculateAll.2.written.OnCycle c := by
  have haccounts := (accounts_recalculateAll htidy hsound).cycles_lt_iff_written
  rw [Writing.cycleWithin_iff_exists_onCycle] at haccounts
  · exact haccounts
  · intro c hc
    obtain ⟨raw, hraw⟩ := Option.ne_none_iff_exists'.mp hc
    exact (mem_recalculateWork_iff htidy hsound c).mpr (contains_of_raw? hraw)

end LiveSheet.Sheet
