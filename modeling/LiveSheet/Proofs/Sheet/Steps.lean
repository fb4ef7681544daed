import LiveSheet.Proofs.Sheet.Walk

/-! # Steps and runs of a walk

Every step keeps the stack in order, whatever the sheet looks like, and a sound sheet sound. A run
takes steps until the stack is empty: a cell is entered as a formula only when it is neither active
nor current, and never becomes so again, so the budget cannot be used up before. -/

namespace LiveSheet.Walk

open Sheet

variable {w w' : Walk} {c : Coord} {rest : List Visit} {raw : String}

/-! ## Finishing the cell on top -/

/-- Finishing the cell on top of the stack takes its step. -/
theorem Orderly.finish (h : w.Orderly []) {v : Visit} (hstack : w.stack = v :: rest)
    {value : CellValue} {s' : Sheet} (hfinishes : Finishes w.sheet v.cell value s')
    {active' : Std.HashSet Coord} (hactive : ∀ p, p ∈ active' ↔ p ∈ path rest)
    (hnot : v.cell ∉ path rest) : Orderly ⟨s', active', rest⟩ [] := by
  have hpath : ∀ p ∈ path rest, p ∈ path w.stack := fun p hp =>
    hstack ▸ (path_sublist v rest).subset hp
  have hcurrent := hfinishes.current_iff (h.recorded _ ((busy_iff hstack _).mpr (.inl rfl)))
  have hnodup := h.nodup
  have hchained := h.chained
  have hawaits := h.awaits
  rw [hstack] at hnodup hchained hawaits
  refine ⟨hactive, hnodup.sublist (path_sublist v rest), ?_, ?_, ?_, ?_, ?_⟩
  · change Chained s'.text? rest
    rw [hfinishes.text?_eq]
    exact hchained.2
  · change Awaits s'.text? _ rest
    rw [hfinishes.text?_eq]
    refine hawaits.tail.mono fun p hp => .inr ?_
    rcases hp with heq | (hp | hp | hp | hp)
    · exact .inr (.inl ((hcurrent p).mpr (.inl heq)))
    · cases hp
    · rcases mem_path_cons (hstack ▸ (h.mem_active_iff p).mp hp) with heq | hp
      · exact .inr (.inl ((hcurrent p).mpr (.inl heq)))
      · exact .inl ((hactive p).mpr hp)
    · exact .inr (.inl ((hcurrent p).mpr (.inr hp)))
    · exact .inr (.inr ((congrFun hfinishes.text?_eq p).trans hp))
  · exact fun c hc =>
      (hfinishes.contains_iff c).mpr (h.recorded c ((busy_iff hstack c).mpr (.inr hc)))
  · intro c hc
    obtain ⟨raw, hraw, hformula⟩ := h.formula c (hpath c hc)
    exact ⟨raw, (congrFun hfinishes.written_eq c).trans hraw, hformula⟩
  · intro c hc hnow
    have hc' := (hactive c).mp hc
    rcases (hcurrent c).mp hnow with heq | hbefore
    · exact hnot (heq ▸ hc')
    · exact h.unfinished c ((h.mem_active_iff c).mpr (hpath c hc')) hbefore

theorem Progress.finish {v : Visit} (hstack : w.stack = v :: rest)
    (htop : w.sheet.store.contains v.cell = true) {value : CellValue} {s' : Sheet}
    (hfinishes : Finishes w.sheet v.cell value s') {active' : Std.HashSet Coord}
    (hactive : ∀ p ∈ w.active, p ∈ active' ∨ p = v.cell) :
    Progress w ⟨s', active', rest⟩ := by
  have hcurrent := hfinishes.current_iff htop
  refine ⟨⟨hfinishes.toExtends, fun c hc => (hcurrent c).mpr (.inr hc), ?_, ?_, ?_⟩, ?_⟩
  · exact fun c hc => (hactive c hc).imp_right fun heq => (hcurrent c).mpr (.inl heq)
  · intro c hc
    exact ((busy_iff hstack c).mp hc).symm.imp_right fun heq => (hcurrent c).mpr (.inl heq)
  · exact fun c hc => .inl ((hfinishes.contains_iff c).mp hc)
  · intro c hc
    by_cases heq : c = v.cell
    · refine .inl ⟨?_, hfinishes.edgesMatch c fun hne => (hne heq).elim⟩
      intro r hr
      obtain ⟨r', hr', hpending, -⟩ := (hcurrent c).mpr (.inl heq)
      cases hr.symm.trans hr'
      exact hpending
    · rcases hc with hc | hc
      · refine .inl ⟨?_, hfinishes.edgesMatch c fun _ => hc.2⟩
        intro r hr
        rw [hfinishes.get?_eq, if_neg heq] at hr
        exact hc.1 r hr
      · exact .inr (((busy_iff hstack c).mp hc).resolve_left heq)

/-- The sheet stays sound if what the cell on top refers to is ready, and its value fits. -/
theorem Inv.faithful_settle (h : w.Inv []) {v : Visit} (hstack : w.stack = v :: rest)
    {value : CellValue} {s' : Sheet} (hsettles : Settles w.sheet v.cell value s')
    (active' : Std.HashSet Coord) (hready : ∀ p, w.sheet.text?.Refers v.cell p → w.Ready p)
    (hfits : w.sheet.text?.Fits w.sheet.inBounds v.cell value) :
    Faithful ⟨s', active', rest⟩ := by
  have hbusy : ∀ p, w.Busy p → p = v.cell ∨ Busy ⟨s', active', rest⟩ p := fun p =>
    (busy_iff hstack p).mp
  have htop : w.sheet.store.contains v.cell = true :=
    h.recorded _ ((busy_iff hstack _).mpr (.inl rfl))
  refine ⟨hsettles.sound h.sound htop hbusy ?_ hfits, ?_⟩
  · -- Whatever is active is either the cell itself or still to be left.
    intro p hp
    rcases hready p hp with hp | hp | hp
    · have hleave := (mem_path_iff _ _).mp ((h.mem_active_iff p).mp hp)
      exact (hbusy p (.inr hleave)).imp_right fun hp => .inr (.inl hp)
    · exact .inr (.inl hp)
    · exact .inr (.inr (.inr hp))
  · intro c hc
    change c ∈ s'.stale ∨ _ ∨ s'.Current c
    rw [hsettles.current_iff htop]
    rcases h.known c ((hsettles.contains_iff c).mp hc) with hc | hc | hc
    · by_cases heq : c = v.cell
      · exact .inr (.inr (.inl heq))
      · exact .inl ((hsettles.mem_stale_iff c).mpr ⟨hc, heq⟩)
    · exact .inr ((hbusy c hc).symm.imp_right .inl)
    · exact .inr (.inr (.inr hc))

/-! ## The steps -/

/-- One step of a walk. -/
inductive Step : Walk → Walk → Prop
  | leave {w : Walk} {c : Coord} {rest : List Visit} (hstack : w.stack = .leave c :: rest) :
      Step w ({ w with stack := rest }.leaveFormula c)
  | settled {w : Walk} {c : Coord} {rest : List Visit} (hstack : w.stack = .enter c :: rest)
      (hentry : w.entry c = .settled) : Step w { w with stack := rest }
  | literal {w : Walk} {c : Coord} {rest : List Visit} {raw : String}
      (hstack : w.stack = .enter c :: rest) (hentry : w.entry c = .literal raw) :
      Step w ({ w with stack := rest }.settleLiteral c raw)
  | formula {w : Walk} {c : Coord} {rest : List Visit} {f : Formula}
      (hstack : w.stack = .enter c :: rest) (hentry : w.entry c = .formula f) :
      Step w ({ w with stack := rest }.openFormula c f)

theorem entry_eq_settled (h : w.entry c = .settled)
    (hc : w.sheet.store.contains c = true) : c ∈ w.active ∨ w.sheet.Current c := by
  unfold entry at h
  split at h
  · next hdone =>
    rcases Bool.or_eq_true _ _ ▸ hdone with hactive | hrefresh
    · exact .inl (Std.HashSet.mem_iff_contains.mpr hactive)
    · rw [Bool.not_eq_true', needsRefresh_eq_false_iff, ← Store.contains_eq_false_iff, hc]
        at hrefresh
      exact .inr (hrefresh.resolve_left Bool.false_ne_true.symm)
  · split at h
    · next hraw =>
      rw [Store.raw?_eq_none_iff, ← Store.contains_eq_false_iff, hc] at hraw
      cases hraw
    · split at h <;> cases h

theorem entry_ne_settled (h : w.entry c ≠ .settled) :
    c ∉ w.active ∧ ¬w.sheet.Current c ∧ ∃ raw, w.sheet.store.raw? c = some raw ∧
      w.entry c = if Formula.isFormula raw then .formula (.ofRaw raw) else .literal raw := by
  unfold entry at h ⊢
  split at h
  · exact (h rfl).elim
  · next hdone =>
    rw [Bool.or_eq_true, not_or, Bool.not_eq_true', Bool.not_eq_false] at hdone
    split at h
    · exact (h rfl).elim
    · next raw hraw =>
      refine ⟨mt Std.HashSet.mem_iff_contains.mp hdone.1,
        (needsRefresh_eq_true_iff.mp hdone.2).2, raw, hraw, ?_⟩
      simp [hdone.1, hdone.2]

theorem entry_eq_literal (h : w.entry c = .literal raw) :
    c ∉ w.active ∧ w.sheet.store.raw? c = some raw ∧ Formula.isFormula raw = false := by
  obtain ⟨hactive, -, raw', hraw, hentry⟩ := entry_ne_settled (w := w) (c := c) (by simp [h])
  rw [h] at hentry
  split at hentry
  · cases hentry
  · next hliteral =>
    cases hentry
    exact ⟨hactive, hraw, Bool.not_eq_true _ ▸ hliteral⟩

theorem entry_eq_formula {f : Formula} (h : w.entry c = .formula f) :
    c ∉ w.active ∧ ¬w.sheet.Current c ∧ ∃ raw, w.sheet.store.raw? c = some raw ∧
      Formula.isFormula raw = true ∧ f = .ofRaw raw := by
  obtain ⟨hactive, hcurrent, raw, hraw, hentry⟩ :=
    entry_ne_settled (w := w) (c := c) (by simp [h])
  rw [h] at hentry
  split at hentry
  · next hformula =>
    cases hentry
    exact ⟨hactive, hcurrent, raw, hraw, hformula, rfl⟩
  · cases hentry

/-- Entering a formula makes it active, with all its references still to be scheduled. -/
theorem Orderly.activate (h : w.Orderly []) (hstack : w.stack = .enter c :: rest)
    (hactive : c ∉ w.active) (hdue : ¬w.sheet.Current c)
    (hraw : w.sheet.store.raw? c = some raw) (hformula : Formula.isFormula raw = true) :
    Orderly ⟨w.sheet, w.active.insert c, .leave c :: rest⟩ (Formula.ofRaw raw).references := by
  have hpath := path_of_enter hstack
  have hnot : c ∉ path rest := fun hc => hactive ((h.mem_active_iff c).mpr (hpath ▸ hc))
  have hchained := h.chained
  have hawaits := h.awaits
  rw [hstack] at hchained hawaits
  refine ⟨?_, ?_, ?_, ?_, ?_, ?_, ?_⟩
  · intro p
    change p ∈ w.active.insert c ↔ p ∈ c :: path rest
    rw [Std.HashSet.mem_insert, beq_iff_eq, List.mem_cons, h.mem_active_iff, hpath,
      eq_comm (a := c)]
  · exact List.nodup_cons.mpr ⟨hnot, hpath ▸ h.nodup⟩
  · exact hchained
  · refine ⟨fun p hp => .inl ?_, hawaits.tail.mono fun p hp => .inr ?_⟩
    · exact (Writing.refers_iff (text?_of_raw? hraw) hformula).mp hp
    · rcases hp with rfl | (hp | hp | hp)
      · exact .inl (Std.HashSet.mem_insert.mpr (.inl (beq_self_eq_true _)))
      · cases hp
      · exact .inl (Std.HashSet.mem_insert.mpr (.inr hp))
      · exact .inr hp
  · intro p hp
    exact h.recorded p ((busy_iff hstack p).mpr ((busy_iff (v := .leave c) rfl p).mp hp))
  · intro p hp
    rcases List.mem_cons.mp hp with rfl | hp
    · exact ⟨raw, hraw, hformula⟩
    · exact h.formula p (hpath ▸ hp)
  · intro p hp
    rcases Std.HashSet.mem_insert.mp hp with heq | hp
    · exact beq_iff_eq.mp heq ▸ hdue
    · exact h.unfinished p hp

theorem Faithful.activate (h : w.Faithful) (hstack : w.stack = .enter c :: rest) :
    Faithful ⟨w.sheet, w.active.insert c, .leave c :: rest⟩ := by
  have hbusy : ∀ p, w.Busy p → Busy ⟨w.sheet, w.active.insert c, .leave c :: rest⟩ p :=
    fun _ hp => hp.activate hstack _
  exact ⟨h.sound.mono_busy fun p hp => .inr (.inl (hbusy p hp)),
    fun p hp => (h.known p hp).imp_right (Or.imp_left (hbusy p))⟩

theorem Progress.activate (hstack : w.stack = .enter c :: rest) :
    Progress w ⟨w.sheet, w.active.insert c, .leave c :: rest⟩ := by
  have hbusy : ∀ p, w.Busy p → Busy ⟨w.sheet, w.active.insert c, .leave c :: rest⟩ p :=
    fun _ hp => hp.activate hstack _
  exact ⟨⟨Extends.refl _, fun _ hp => hp,
    fun _ hp => .inl (Std.HashSet.mem_insert.mpr (.inr hp)), fun p hp => .inl (hbusy p hp),
    fun _ hp => .inl hp⟩, fun p hp => hp.imp_right (hbusy p)⟩

section Leaving

variable (h : w.Orderly []) (hstack : w.stack = .leave c :: rest)

include h hstack

theorem Orderly.mem_active : c ∈ w.active :=
  (h.mem_active_iff c).mpr (by rw [hstack]; exact List.mem_cons_self)

/-- A cell that is left holds a formula. -/
theorem Orderly.exists_formula :
    ∃ raw, w.sheet.store.raw? c = some raw ∧ Formula.isFormula raw = true :=
  h.formula c ((h.mem_active_iff c).mp (h.mem_active hstack))

/-- When a formula is left all its operands are ready. -/
theorem Orderly.ready {p : Coord} (hp : w.sheet.text?.Refers c p) : w.Ready p := by
  have hawaits := h.awaits
  rw [hstack] at hawaits
  exact (hawaits.1 p hp).resolve_left List.not_mem_nil

theorem Orderly.mem_erase_iff (p : Coord) : p ∈ w.active.erase c ↔ p ∈ path rest := by
  have hnodup := h.nodup
  rw [hstack] at hnodup
  rw [Coord.mem_erase_iff, h.mem_active_iff, hstack]
  change p ∈ c :: path rest ∧ p ≠ c ↔ p ∈ path rest
  rw [List.mem_cons]
  constructor
  · rintro ⟨hp, hne⟩
    exact hp.resolve_left hne
  · exact fun hp => ⟨.inr hp, fun heq => (List.nodup_cons.mp hnodup).1 (heq ▸ hp)⟩

theorem Orderly.leave : ({ w with stack := rest }.leaveFormula c).Orderly [] ∧
    Progress w ({ w with stack := rest }.leaveFormula c) := by
  obtain ⟨raw, hraw, hformula⟩ := h.exists_formula hstack
  have hfinishes : Finishes w.sheet (Visit.leave c).cell _ _ :=
    finishes_complete hraw hformula w.active
  have hnodup := h.nodup
  rw [hstack] at hnodup
  refine ⟨h.finish hstack hfinishes (h.mem_erase_iff hstack) (List.nodup_cons.mp hnodup).1,
    .finish hstack (contains_of_raw? hraw) hfinishes fun p hp => ?_⟩
  by_cases heq : p = c
  · exact .inr heq
  · exact .inl ((Coord.mem_erase_iff _ _ _).mpr ⟨hp, heq⟩)

end Leaving

/-- Leaving a formula computes it from operands that are ready. -/
theorem Inv.faithful_leave (h : w.Inv []) (hstack : w.stack = .leave c :: rest) :
    ({ w with stack := rest }.leaveFormula c).Faithful := by
  obtain ⟨raw, hraw, hformula⟩ := h.exists_formula hstack
  have hsettles : Settles w.sheet (Visit.leave c).cell _ _ :=
    settles_complete h.sound.memo h.sound.converse hraw hformula w.active
  refine h.faithful_settle hstack hsettles _ (fun p => h.ready hstack) ?_
  refine Writing.Fits.formula (text?_of_raw? hraw) hformula w.active.contains w.sheet.store.value
    ?_ ?_
  · -- A reference to an active cell closes a cycle: the path of active cells leads back.
    intro p _ hp
    refine h.chained.reaches (by rw [hstack]; rfl) p ((h.mem_active_iff p).mp ?_)
    exact Std.HashSet.mem_iff_contains.mpr hp
  · intro p hp hnot
    rcases h.ready hstack hp with hactive | hcurrent | hblank
    · rw [Std.HashSet.mem_iff_contains, hnot] at hactive
      cases hactive
    · exact h.sound.fits p hcurrent
    · rw [Store.value_of_get?_eq_none (get?_eq_none_of_text? hblank)]
      exact .blank hblank

section Passing

variable (h : w.Orderly []) (hstack : w.stack = .enter c :: rest) (hentry : w.entry c = .settled)

include h hstack hentry

/-- A cell may be entered in vain because it is active, but then it is still to be left. -/
theorem Orderly.busy_pass {p : Coord} (hp : w.Busy p) :
    Busy { w with stack := rest } p ∨ w.sheet.Current p := by
  have hpath := path_of_enter hstack
  rcases (busy_iff hstack p).mp hp with rfl | hp
  · have hdone : p ∈ w.active ∨ w.sheet.Current p := entry_eq_settled hentry (h.recorded p hp)
    exact hdone.imp_left fun hactive =>
      .inr ((mem_path_iff _ _).mp (hpath ▸ (h.mem_active_iff _).mp hactive))
  · exact .inl hp

/-- A cell that needs nothing is passed over. -/
theorem Orderly.pass :
    Orderly { w with stack := rest } [] ∧ Advances w { w with stack := rest } := by
  have hpath := path_of_enter hstack
  have hchained := h.chained
  have hawaits := h.awaits
  rw [hstack] at hchained hawaits
  refine ⟨⟨hpath ▸ h.mem_active_iff, hpath ▸ h.nodup, hchained.2, ?_, ?_, ?_, h.unfinished⟩, ?_⟩
  · refine hawaits.tail.mono fun p hp => .inr ?_
    rcases hp with rfl | (hp | hp)
    · have hp := h.recorded p ((busy_iff hstack p).mpr (.inl rfl))
      exact (entry_eq_settled hentry hp).imp_right .inl
    · cases hp
    · exact hp
  · exact fun p hp => h.recorded p ((busy_iff hstack p).mpr (.inr hp))
  · exact fun p hp => h.formula p (hpath ▸ hp)
  · exact ⟨Extends.refl _, fun _ hp => hp, fun _ hp => .inl hp, fun p => h.busy_pass hstack hentry,
      fun _ hp => .inl hp⟩

end Passing

theorem Inv.pass (h : w.Inv []) (hstack : w.stack = .enter c :: rest)
    (hentry : w.entry c = .settled) :
    Faithful { w with stack := rest } ∧ Progress w { w with stack := rest } := by
  have hbusy : ∀ p, w.Busy p → Busy { w with stack := rest } p ∨ w.sheet.Current p := fun p =>
    h.busy_pass hstack hentry
  refine ⟨⟨h.sound.mono_busy fun p hp => (hbusy p hp).symm.imp_right .inl, fun p hp => ?_⟩,
    (h.toOrderly.pass hstack hentry).2, ?_⟩
  · rcases h.known p hp with hp | hp | hp
    · exact .inl hp
    · exact .inr (hbusy p hp)
    · exact .inr (.inr hp)
  · rintro p (hp | hp)
    · exact .inl hp
    · exact (hbusy p hp).symm.imp_left h.sound.built

/-- A literal is computed when it is entered. -/
theorem Orderly.literal (h : w.Orderly []) (hstack : w.stack = .enter c :: rest)
    (hentry : w.entry c = .literal raw) :
    ({ w with stack := rest }.settleLiteral c raw).Orderly [] ∧
      Progress w ({ w with stack := rest }.settleLiteral c raw) := by
  obtain ⟨hactive, hraw, hliteral⟩ := entry_eq_literal hentry
  have hpath := path_of_enter hstack
  have hfinishes : Finishes w.sheet (Visit.enter c).cell _ _ := finishes_literal hraw hliteral
  refine ⟨h.finish hstack hfinishes (hpath ▸ h.mem_active_iff) ?_,
    .finish hstack (contains_of_raw? hraw) hfinishes fun _ hp => .inl hp⟩
  exact hpath ▸ mt (h.mem_active_iff c).mpr hactive

theorem Inv.faithful_literal (h : w.Inv []) (hstack : w.stack = .enter c :: rest)
    (hentry : w.entry c = .literal raw) :
    ({ w with stack := rest }.settleLiteral c raw).Faithful := by
  obtain ⟨-, hraw, hliteral⟩ := entry_eq_literal hentry
  have htext := text?_of_raw? hraw
  have hsettles : Settles w.sheet (Visit.enter c).cell _ _ :=
    settles_literal h.sound.memo h.sound.converse hraw hliteral
  refine h.faithful_settle hstack hsettles _ (fun p hp => ?_) (.literal htext hliteral)
  change p ∈ w.sheet.text?.references c at hp
  rw [Writing.references_of_literal htext hliteral] at hp
  cases hp

/-- Entering a formula puts its precedents on the stack. -/
theorem Orderly.enter (h : w.Orderly []) {f : Formula} (hstack : w.stack = .enter c :: rest)
    (hentry : w.entry c = .formula f) :
    ({ w with stack := rest }.openFormula c f).Orderly [] ∧
      Progress w ({ w with stack := rest }.openFormula c f) := by
  obtain ⟨hactive, hdue, raw, hraw, hformula, rfl⟩ := entry_eq_formula hentry
  refine ⟨(h.activate hstack hactive hdue hraw hformula).foldl_schedule ?_,
    (Progress.activate hstack).trans (Progress.foldl_schedule _ _)⟩
  intro p hp d hd
  cases hd
  exact (Writing.refers_iff (text?_of_raw? hraw) hformula).mpr hp

/-- Every step keeps the stack in order. -/
theorem Orderly.step (h : w.Orderly []) (hstep : Step w w') :
    w'.Orderly [] ∧ Advances w w' := by
  cases hstep with
  | leave hstack => exact (h.leave hstack).imp_right Progress.toAdvances
  | settled hstack hentry => exact h.pass hstack hentry
  | literal hstack hentry => exact (h.literal hstack hentry).imp_right Progress.toAdvances
  | formula hstack hentry => exact (h.enter hstack hentry).imp_right Progress.toAdvances

/-- Every step keeps the invariant. -/
theorem Inv.step (h : w.Inv []) (hstep : Step w w') : w'.Inv [] ∧ Progress w w' := by
  have horderly := (h.toOrderly.step hstep).1
  cases hstep with
  | leave hstack => exact ⟨⟨horderly, h.faithful_leave hstack⟩, (h.toOrderly.leave hstack).2⟩
  | settled hstack hentry =>
      obtain ⟨hfaithful, hprogress⟩ := h.pass hstack hentry
      exact ⟨⟨horderly, hfaithful⟩, hprogress⟩
  | literal hstack hentry =>
      exact ⟨⟨horderly, h.faithful_literal hstack hentry⟩, (h.toOrderly.literal hstack hentry).2⟩
  | formula hstack hentry =>
      exact ⟨⟨horderly, (h.toFaithful.activate hstack).foldl_schedule _⟩,
        (h.toOrderly.enter hstack hentry).2⟩

/-! ## Runs -/

variable {budget : Nat}

theorem run_of_nil (hstack : w.stack = []) (budget : Nat) : run budget w = w := by
  rw [run]
  split
  · rfl
  · next hstack' => cases hstack.symm.trans hstack'
  · next hstack' => cases hstack.symm.trans hstack'

theorem run_of_leave (hstack : w.stack = .leave c :: rest) (budget : Nat) :
    run budget w = run budget ({ w with stack := rest }.leaveFormula c) := by
  rw [run]
  split
  · next hstack' => cases hstack.symm.trans hstack'
  · next hstack' =>
    cases hstack.symm.trans hstack'
    rfl
  · next hstack' => cases hstack.symm.trans hstack'

theorem run_of_enter (hstack : w.stack = .enter c :: rest) (budget : Nat) :
    run budget w =
      match w.entry c with
      | .settled => run budget { w with stack := rest }
      | .literal raw => run budget ({ w with stack := rest }.settleLiteral c raw)
      | .formula f =>
          match budget with
          | 0 => w
          | budget + 1 => run budget ({ w with stack := rest }.openFormula c f) := by
  rw [run]
  split
  · next hstack' => cases hstack.symm.trans hstack'
  · next hstack' => cases hstack.symm.trans hstack'
  · next hstack' =>
    cases hstack.symm.trans hstack'
    rfl

/-- A run that has come to its end does not need a greater budget. -/
theorem run_eq_of_le (hdone : (run budget w).stack = []) {budget' : Nat}
    (hle : budget ≤ budget') : run budget' w = run budget w := by
  fun_induction run budget w generalizing budget' with
  | case1 budget w hstack => exact run_of_nil hstack budget'
  | case2 budget w c rest hstack ih => rw [run_of_leave hstack, ih hdone hle]
  | case3 budget w c rest hstack hentry ih =>
      rw [run_of_enter hstack, hentry]
      exact ih hdone hle
  | case4 budget w c rest hstack raw hentry ih =>
      rw [run_of_enter hstack, hentry]
      exact ih hdone hle
  | case5 w c rest hstack f hentry => cases hstack.symm.trans hdone
  | case6 w c rest hstack f hentry budget ih =>
      obtain ⟨left, rfl⟩ : ∃ left, budget' = left + 1 := ⟨budget' - 1, by omega⟩
      rw [run_of_enter hstack, hentry]
      exact ih hdone (Nat.le_of_succ_le_succ hle)

/-- A run takes steps. -/
theorem reflTransGen_run (budget : Nat) (w : Walk) :
    Relation.ReflTransGen Step w (run budget w) := by
  fun_induction run budget w with
  | case1 => exact .refl
  | case2 budget w c rest hstack ih => exact .head (.leave hstack) ih
  | case3 budget w c rest hstack hentry ih => exact .head (.settled hstack hentry) ih
  | case4 budget w c rest hstack raw hentry ih => exact .head (.literal hstack hentry) ih
  | case5 => exact .refl
  | case6 w c rest hstack f hentry budget ih => exact .head (.formula hstack hentry) ih

theorem Orderly.steps (h : w.Orderly []) (hsteps : Relation.ReflTransGen Step w w') :
    w'.Orderly [] ∧ Advances w w' := by
  induction hsteps with
  | refl => exact ⟨h, .refl w⟩
  | tail _ hstep ih =>
      obtain ⟨horderly, hadvances⟩ := ih
      obtain ⟨horderly', hadvances'⟩ := horderly.step hstep
      exact ⟨horderly', hadvances.trans hadvances'⟩

theorem Inv.steps (h : w.Inv []) (hsteps : Relation.ReflTransGen Step w w') :
    w'.Inv [] ∧ Progress w w' := by
  induction hsteps with
  | refl => exact ⟨h, Progress.refl w⟩
  | tail _ hstep ih =>
      obtain ⟨hinv, hprogress⟩ := ih
      obtain ⟨hinv', hprogress'⟩ := hinv.step hstep
      exact ⟨hinv', hprogress.trans hprogress'⟩

end LiveSheet.Walk
