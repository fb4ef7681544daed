import LiveSheet.Proofs.Sheet.Extent
import LiveSheet.Proofs.Sheet.Findings
import Mathlib.Order.Bounds.Defs

/-! # Exactly the work that is needed

Whatever values a sheet has, and however its formulas refer to each other, an evaluation comes to
its end. It computes its own cell and the cells that this leads to by demands, each of them once:
no others, because a walk is confined to them, and none less, because all that a computed formula
refers to is ready when the stack is empty, and nothing is active any more. -/

namespace LiveSheet

namespace Walk

open Sheet

variable {w w' w₁ w₂ : Walk} {c : Coord} {rest : List Visit} {cells cells₁ cells₂ : List Coord}
  {raw : String} {f : Formula}

/-- A part of a run computes the given cells. They are stale no longer, what they refer to is ready
in the end, and a walk that keeps to what its root leads to has been led to them. -/
structure Explores (w : Walk) (cells : List Coord) (w' : Walk) : Prop extends Advances w w' where
  computes : Computes w.sheet cells w'.sheet
  mem_stale_iff : ∀ c, c ∈ w'.sheet.stale ↔ c ∈ w.sheet.stale ∧ c ∉ cells
  done : ∀ c ∈ cells, ∀ p, w.sheet.text?.Refers c p → w'.Ready p
  confined : ∀ {s root}, w.Confined s root →
    w'.Confined s root ∧ ∀ c ∈ cells, Relation.ReflTransGen s.Demands root c

theorem Explores.refl (w : Walk) : Explores w [] w where
  toAdvances := .refl w
  computes := .refl _
  mem_stale_iff _ := (and_iff_left List.not_mem_nil).symm
  done _ hc := (List.not_mem_nil hc).elim
  confined hw := ⟨hw, fun _ hc => (List.not_mem_nil hc).elim⟩

theorem Explores.trans (h₁ : Explores w cells₁ w₁) (h₂ : Explores w₁ cells₂ w₂) :
    Explores w (cells₁ ++ cells₂) w₂ where
  toAdvances := h₁.toAdvances.trans h₂.toAdvances
  computes := h₁.computes.trans h₂.computes
  mem_stale_iff c := by
    rw [h₂.mem_stale_iff, h₁.mem_stale_iff, List.mem_append, not_or, and_assoc]
  done c hc p hp := by
    rcases List.mem_append.mp hc with hc | hc
    · exact h₂.toAdvances.ready (h₁.done c hc p hp)
    · exact h₂.done c hc p (h₁.computes.text?_eq ▸ hp)
  confined hw := by
    obtain ⟨hw₁, hcells₁⟩ := h₁.confined hw
    obtain ⟨hw₂, hcells₂⟩ := h₂.confined hw₁
    exact ⟨hw₂, fun c hc => (List.mem_append.mp hc).elim (hcells₁ c) (hcells₂ c)⟩

/-! ## The steps -/

/-- A step that computes no cell. -/
theorem Orderly.explores_of_nil (h : w.Orderly []) (hstep : Step w w')
    (hcomputes : Computes w.sheet [] w'.sheet) (hstale : w'.sheet.stale = w.sheet.stale) :
    Explores w [] w' where
  toAdvances := (h.step hstep).2
  computes := hcomputes
  mem_stale_iff _ := by rw [hstale, and_iff_left List.not_mem_nil]
  done _ hc := (List.not_mem_nil hc).elim
  confined hw := ⟨hw.step h hstep, fun _ hc => (List.not_mem_nil hc).elim⟩

/-- A step that computes the cell on top of the stack. -/
theorem Orderly.explores_of_finishes (h : w.Orderly []) (hstep : Step w w') {v : Visit}
    (hstack : w.stack = v :: rest) {value : CellValue}
    (hfinishes : Finishes w.sheet v.cell value w'.sheet) (hdue : ¬w.sheet.Current v.cell)
    (hready : ∀ p, w.sheet.text?.Refers v.cell p → w.Ready p) : Explores w [v.cell] w' where
  toAdvances := (h.step hstep).2
  computes := hfinishes.computes (h.recorded _ ((busy_iff hstack _).mpr (.inl rfl))) hdue
  mem_stale_iff d := by rw [hfinishes.mem_stale_iff, List.mem_singleton]
  done d hd p hp := (h.step hstep).2.ready (hready p (List.mem_singleton.mp hd ▸ hp))
  confined hw := ⟨hw.step h hstep, fun d hd =>
    hw.busy d ((busy_iff hstack d).mpr (.inl (List.mem_singleton.mp hd)))⟩

theorem Orderly.explores_leave (h : w.Orderly []) (hstack : w.stack = .leave c :: rest) :
    Explores w [c] ({ w with stack := rest }.leaveFormula c) := by
  obtain ⟨raw, hraw, hformula⟩ := h.exists_formula hstack
  exact h.explores_of_finishes (.leave hstack) hstack
    (finishes_complete hraw hformula w.active) (h.unfinished c (h.mem_active hstack))
    fun p => h.ready hstack

theorem Orderly.explores_literal (h : w.Orderly []) (hstack : w.stack = .enter c :: rest)
    (hentry : w.entry c = .literal raw) :
    Explores w [c] ({ w with stack := rest }.settleLiteral c raw) := by
  obtain ⟨-, hraw, hliteral⟩ := entry_eq_literal hentry
  exact h.explores_of_finishes (.literal hstack hentry) hstack (finishes_literal hraw hliteral)
    (entry_ne_settled (w := w) (c := c) (by simp [hentry])).2.1
    fun p hp => (not_refers_of_literal hentry p hp).elim

theorem stale_foldl_schedule (w : Walk) (todo : List Coord) :
    (todo.foldl Walk.schedule w).sheet.stale = w.sheet.stale := by
  induction todo generalizing w with
  | nil => rfl
  | cons p rest ih =>
      have hschedule : (w.schedule p).sheet.stale = w.sheet.stale := by
        rcases schedule_cases w p with ⟨heq, -⟩ | ⟨heq, -⟩ <;> rw [heq]
        exact stale_synthesize w.sheet p
      exact (ih (w.schedule p)).trans hschedule

/-- A run explores what its steps explore. -/
theorem Orderly.explores_run (h : w.Orderly []) (budget : Nat) :
    Explores w (work budget w) (run budget w) :=
  h.run_induction .refl .trans Orderly.explores_leave
    (fun h hstack hentry => h.explores_of_nil (.settled hstack hentry) (.refl _) rfl)
    Orderly.explores_literal
    (fun h hstack hentry => h.explores_of_nil (.formula hstack hentry)
      (computes_openFormula _ _ _ _).1 (stale_foldl_schedule _ _))
    budget

end Walk

namespace Sheet

variable {s : Sheet} {c d : Coord}

/-- An evaluation comes to its end, and no greater budget would change anything about it. -/
theorem run_eq_evaluate (hstore : s.store.Tidy) (hc : s.text? c ≠ none) {budget : Nat}
    (hbudget : (s.synthesize c).cellBound ≤ budget) :
    (Walk.run budget (Walk.opening (s.synthesize c) c)).stack = [] ∧
      (Walk.run budget (Walk.opening (s.synthesize c) c)).sheet = s.evaluate c := by
  have hwritten := contains_synthesize_self hc
  have horderly := orderly_opening hwritten
  have hend := horderly.stack_run_of_tidy (tidy_synthesize hstore c) (Nat.le_refl _)
  refine ⟨horderly.stack_run_of_tidy (tidy_synthesize hstore c) hbudget, ?_⟩
  rw [Walk.run_eq_of_le hend hbudget]
  unfold Sheet.evaluate
  rw [if_pos hwritten]
  rfl

/-- What an evaluation computes, told from its first step and from its last, when nothing is left
to be taken up. -/
theorem explores_evaluate (hstore : s.store.Tidy) (hc : s.text? c ≠ none) :
    ∃ w : Walk, Walk.Explores (Walk.opening (s.synthesize c) c) (s.evaluateWork c) w ∧
      w.sheet = s.evaluate c ∧ (∀ p, ¬w.Busy p) ∧ ∀ p, p ∉ w.active := by
  have hwritten := contains_synthesize_self hc
  have horderly := orderly_opening hwritten
  obtain ⟨hstack, hsheet⟩ := run_eq_evaluate hstore hc (Nat.le_refl _)
  have hend := (horderly.steps (Walk.reflTransGen_run (s.synthesize c).cellBound _)).1
  refine ⟨_, ?_, hsheet, Walk.not_busy_of_nil hstack, hend.not_mem_active_of_nil hstack⟩
  unfold evaluateWork
  rw [if_pos hwritten]
  exact horderly.explores_run (s.synthesize c).cellBound

section

variable (hstore : s.store.Tidy) (hc : s.text? c ≠ none)

include hstore hc

theorem text?_evaluate : (s.evaluate c).text? = s.text? := by
  obtain ⟨w, h, hsheet, -⟩ := explores_evaluate hstore hc
  rw [← hsheet, h.computes.text?_eq]
  exact (extends_synthesize s c).text?_eq

/-- The computed cells are the cell itself and those that have become current. -/
theorem mem_evaluateWork_iff_current :
    d ∈ s.evaluateWork c ↔ (s.evaluate c).Current d ∧ (d = c ∨ ¬s.Current d) := by
  obtain ⟨w, h, hsheet, -⟩ := explores_evaluate hstore hc
  rw [h.computes.mem_iff, hsheet, Walk.current_opening_iff, current_synthesize_iff, not_and_or,
    not_not]

theorem mem_evaluateWork_self : c ∈ s.evaluateWork c := by
  obtain ⟨w, h, hsheet, hidle, -⟩ := explores_evaluate hstore hc
  have hcurrent := (h.busy c ((Walk.busy_opening_iff _ c c).mpr rfl)).resolve_left (hidle c)
  exact (mem_evaluateWork_iff_current hstore hc).mpr ⟨hsheet ▸ hcurrent, .inl rfl⟩

/-- What a computed formula refers to is computed as well, if it was due. -/
theorem mem_evaluateWork_of_demands {a p : Coord} (ha : a ∈ s.evaluateWork c)
    (hap : s.text?.Refers a p) (hdue : s.Due p) : p ∈ s.evaluateWork c := by
  obtain ⟨w, h, hsheet, -, hactive⟩ := explores_evaluate hstore hc
  obtain ⟨htext, hcurrent⟩ := due_iff.mp hdue
  have hopening : (Walk.opening (s.synthesize c) c).sheet.text? = s.text? :=
    (extends_synthesize s c).text?_eq
  rcases h.done a ha p (hopening ▸ hap) with hp | hp | hp
  · exact (hactive p hp).elim
  · exact (mem_evaluateWork_iff_current hstore hc).mpr ⟨hsheet ▸ hp, .inr hcurrent⟩
  · rw [hsheet, text?_evaluate hstore hc] at hp
    exact (htext hp).elim

theorem demanded_of_mem_evaluateWork (hd : d ∈ s.evaluateWork c) :
    Relation.ReflTransGen s.Demands c d := by
  obtain ⟨w, h, -⟩ := explores_evaluate hstore hc
  exact (h.confined (Walk.confined_opening s c)).2 d hd

/-- A computed cell has its text in a record, and a value. -/
theorem record_evaluate_of_mem (hd : d ∈ s.evaluateWork c) :
    ∃ r, (s.evaluate c).store.get? d = some r ∧ some r.raw = s.text? d ∧ r.value ≠ .pending := by
  obtain ⟨⟨r, hr, hpending, -⟩, -⟩ := (mem_evaluateWork_iff_current hstore hc).mp hd
  refine ⟨r, hr, ?_, hpending⟩
  rw [← text?_evaluate hstore hc]
  exact (text?_of_raw? ((Store.raw?_eq_some_iff _ _ _).mpr ⟨r, hr, rfl⟩)).symm

/-- No other record is touched, and none is made. -/
theorem get?_evaluate_of_not_mem (hd : d ∉ s.evaluateWork c) :
    (s.evaluate c).store.get? d = s.store.get? d := by
  obtain ⟨w, h, hsheet, hidle, -⟩ := explores_evaluate hstore hc
  have hdc : d ≠ c := by
    rintro rfl
    exact hd (mem_evaluateWork_self hstore hc)
  rw [← hsheet, ← get?_synthesize (s := s) hdc]
  by_cases hbefore : (s.synthesize c).store.contains d = true
  · exact h.computes.get?_eq d hd hbefore
  · have hafter : ¬w.sheet.store.contains d = true := fun hafter => by
      rcases h.written d hafter with hcontains | ⟨-, hbusy | hcurrent⟩
      · exact hbefore hcontains
      · exact hidle d hbusy
      · refine hd ((mem_evaluateWork_iff_current hstore hc).mpr ⟨hsheet ▸ hcurrent, .inr ?_⟩)
        exact fun hold => hbefore ((current_synthesize_iff s c d).mpr hold).contains
    rw [Store.get?_eq_none_of_not_contains hbefore, Store.get?_eq_none_of_not_contains hafter]

/-- What has been computed is stale no longer. -/
theorem mem_stale_evaluate_iff_not_mem :
    d ∈ (s.evaluate c).stale ↔ d ∈ s.stale ∧ d ∉ s.evaluateWork c := by
  obtain ⟨w, h, hsheet, -⟩ := explores_evaluate hstore hc
  rw [← hsheet, h.mem_stale_iff]
  change d ∈ (s.synthesize c).stale.insert c ∧ _ ↔ _
  rw [stale_synthesize, Std.HashSet.mem_insert, beq_iff_eq]
  refine and_congr_left fun hd => or_iff_right fun heq => hd ?_
  exact heq ▸ mem_evaluateWork_self hstore hc

end

/-- In every state of a sheet, evaluating a cell that has a record or template text comes to an
end, whatever budget it has beyond the bound. It computes exactly the cells of the least set that
contains the cell and, with each formula, whatever the formula refers to that is stale, pending or
still to be written from the template: each of them once. Afterwards these cells have records with
their texts and values that are not pending, they are no longer stale, and nothing else has
changed. Values, edges, marks and remembered results may be any; only the store is a store, which
counts the records written into it. -/
theorem evaluate_computes_least (s : Sheet) (c : Coord) (hstore : s.store.Tidy)
    (hc : s.text? c ≠ none) :
    (∀ budget, (s.synthesize c).cellBound ≤ budget →
      (Walk.run budget (Walk.opening (s.synthesize c) c)).stack = [] ∧
        (Walk.run budget (Walk.opening (s.synthesize c) c)).sheet = s.evaluate c) ∧
      IsLeast
        {cells : Set Coord |
          c ∈ cells ∧ ∀ a ∈ cells, ∀ p, s.text?.Refers a p → s.Due p → p ∈ cells}
        {d | d ∈ s.evaluateWork c} ∧
      (s.evaluateWork c).Nodup ∧
      (s.evaluate c).counters.computed = s.counters.computed + (s.evaluateWork c).length ∧
      (∀ d, d ∈ (s.evaluate c).stale ↔ d ∈ s.stale ∧ d ∉ s.evaluateWork c) ∧
      (∀ d ∈ s.evaluateWork c, ∃ r, (s.evaluate c).store.get? d = some r ∧
        some r.raw = s.text? d ∧ r.value ≠ .pending) ∧
      ∀ d ∉ s.evaluateWork c, (s.evaluate c).store.get? d = s.store.get? d := by
  obtain ⟨w, h, -⟩ := explores_evaluate hstore hc
  refine ⟨fun budget => run_eq_evaluate hstore hc, ⟨⟨?_, fun a ha p => ?_⟩, ?_⟩,
    h.computes.nodup, computed_evaluate s c, fun d => mem_stale_evaluate_iff_not_mem hstore hc,
    fun d => record_evaluate_of_mem hstore hc, fun d => get?_evaluate_of_not_mem hstore hc⟩
  · exact mem_evaluateWork_self hstore hc
  · exact mem_evaluateWork_of_demands hstore hc ha
  · -- Demands never lead out of a set that is closed under them.
    rintro cells ⟨hroot, hclosed⟩ d hd
    have hpath := demanded_of_mem_evaluateWork hstore hc hd
    clear hd
    induction hpath with
    | refl => exact hroot
    | tail _ hdemand ih => exact hclosed _ ih _ hdemand.1 hdemand.2

/-- Of two cells that refer to each other only one has been written, and the other is written and
computed with it. -/
theorem evaluate_computes_unwritten_cycle :
    let s : Sheet :=
      { Sheet.fresh { totalRows := 1, totalCols := 2 } (.ofTexts fun _ => some "=A1") with
        store := (∅ : Store).setRaw ⟨0, 0⟩ "=B1" }
    s.store.Tidy ∧ s.text? ⟨0, 0⟩ = some "=B1" ∧
      ∃ r, (s.evaluate ⟨0, 0⟩).store.get? ⟨0, 1⟩ = some r ∧ some r.raw = some "=A1" ∧
        r.value ≠ .pending := by
  intro s
  have hstore : s.store.Tidy := Store.tidy_empty.setRaw _ _
  have hraw : s.store.raw? ⟨0, 0⟩ = some "=B1" := by
    rw [Store.raw?_setRaw, if_pos rfl]
  have hnone : s.store.get? ⟨0, 1⟩ = none := by
    rw [Store.get?_setRaw, if_neg (by decide), Store.get?_empty]
  have htemplate : s.templateText? ⟨0, 1⟩ = some "=A1" := rfl
  have hdue : s.Due ⟨0, 1⟩ := .inr ⟨hnone, htemplate ▸ Option.some_ne_none _⟩
  have hreferences : (Formula.ofRaw "=B1").references = [⟨0, 1⟩] := by decide +kernel
  have hrefers : s.text?.Refers ⟨0, 0⟩ ⟨0, 1⟩ := by
    rw [Writing.refers_iff (text?_of_raw? hraw) rfl, hreferences]
    exact List.mem_singleton.mpr rfl
  obtain ⟨-, ⟨⟨hself, hclosed⟩, -⟩, -, -, -, hrecords, -⟩ :=
    evaluate_computes_least s ⟨0, 0⟩ hstore (text?_of_raw? hraw ▸ Option.some_ne_none _)
  refine ⟨hstore, text?_of_raw? hraw, ?_⟩
  rw [← htemplate, ← text?_of_get?_eq_none hnone]
  exact hrecords _ (hclosed _ hself _ hrefers hdue)

end Sheet

end LiveSheet
