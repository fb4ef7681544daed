import LiveSheet.Proofs.Sheet.Steps
import Mathlib.Data.Finset.Prod
import Mathlib.Data.Set.Card

/-! # Evaluation

Evaluating a cell keeps a sound sheet sound and makes the cell current, whatever the sheet
looks like otherwise. The budget of the walk is never used up. -/

namespace LiveSheet

/-- The cells of the grid. -/
def Settings.cells (s : Settings) : Finset Coord :=
  (Finset.range s.totalRows ×ˢ Finset.range s.totalCols).image fun (row, col) => ⟨row, col⟩

theorem Settings.card_cells_le (s : Settings) : s.cells.card ≤ s.totalRows * s.totalCols := by
  refine Finset.card_image_le.trans ?_
  rw [Finset.card_product, Finset.card_range, Finset.card_range]

theorem Settings.mem_cells_iff (s : Settings) (c : Coord) :
    c ∈ s.cells ↔ c.inGrid s.totalRows s.totalCols = true := by
  cases c
  simp [cells, Coord.inGrid]

/-- There are no more cells that have or may get a record than the bound says. -/
theorem Sheet.ncard_cells_le {s : Sheet} (h : s.store.Tidy) :
    {c | s.store.contains c = true ∨ s.inBounds c = true}.Finite ∧
      {c | s.store.contains c = true ∨ s.inBounds c = true}.ncard ≤ s.cellBound := by
  obtain ⟨hfinite, hsize⟩ := h.size_eq_ncard
  have hgrid : {c | s.inBounds c = true} = ↑s.settings.cells := by
    ext c
    rw [Set.mem_ofPred_eq, Finset.mem_coe, Settings.mem_cells_iff, inBounds]
  have hunion : {c | s.store.contains c = true ∨ s.inBounds c = true} =
      {c | s.store.contains c = true} ∪ ↑s.settings.cells := by
    rw [← hgrid]
    rfl
  rw [hunion]
  refine ⟨hfinite.union (Finset.finite_toSet _), (Set.ncard_union_le _ _).trans ?_⟩
  rw [← hsize, Set.ncard_coe_finset, cellBound, Nat.add_comm]
  exact Nat.add_le_add_right s.settings.card_cells_le _

namespace Walk

open Sheet

/-- The cells that a walk may still enter as formulas. -/
def unsettled (w : Walk) : Set Coord :=
  {c | (w.sheet.store.contains c = true ∨ w.sheet.inBounds c = true) ∧ c ∉ w.active ∧
    ¬w.sheet.Current c}

theorem Advances.unsettled_subset {w w' : Walk} (h : Advances w w') :
    w'.unsettled ⊆ w.unsettled := by
  rintro c ⟨hc, hactive, hcurrent⟩
  refine ⟨?_, fun hc => ?_, fun hc => hcurrent (h.current c hc)⟩
  · rcases hc with hc | hc
    · exact (h.written c hc).imp_right And.left
    · exact .inr (inBounds_congr h.toExtends.settings_eq ▸ hc)
  · exact (h.active c hc).elim hactive hcurrent

/-- Entering a formula uses up its cell. -/
theorem ncard_unsettled_openFormula_lt {w : Walk} (h : w.Orderly []) (hfinite : w.unsettled.Finite)
    {c : Coord} {rest : List Visit} {f : Formula} (hstack : w.stack = .enter c :: rest)
    (hentry : w.entry c = .formula f) :
    ({ w with stack := rest }.openFormula c f).unsettled.ncard < w.unsettled.ncard := by
  obtain ⟨hactive, hcurrent, raw, hraw, -, -⟩ := entry_eq_formula hentry
  have hsubset := (h.step (.formula hstack hentry)).2.unsettled_subset
  have hopened := (Progress.foldl_schedule
    ⟨w.sheet, w.active.insert c, .leave c :: rest⟩ f.references).active c
      (Std.HashSet.mem_insert.mpr (.inl (beq_self_eq_true c)))
  have hc : c ∈ w.unsettled := ⟨.inl (contains_of_raw? hraw), hactive, hcurrent⟩
  refine Set.ncard_lt_ncard ⟨hsubset, fun hsuperset => ?_⟩ hfinite
  have hc' := hsuperset hc
  exact hopened.elim hc'.2.1 hc'.2.2

/-- With enough budget a run ends with an empty stack. -/
theorem Orderly.stack_run {w : Walk} (h : w.Orderly []) (hfinite : w.unsettled.Finite)
    {budget : Nat} (hbudget : w.unsettled.ncard ≤ budget) : (run budget w).stack = [] := by
  -- No step adds a cell to those that may still be entered.
  have hstep : ∀ {w w' : Walk}, w.Orderly [] → Step w w' → w.unsettled.Finite →
      w'.Orderly [] ∧ w'.unsettled.Finite ∧ w'.unsettled.ncard ≤ w.unsettled.ncard := by
    intro w w' h hstep hfinite
    obtain ⟨horderly, hadvances⟩ := h.step hstep
    exact ⟨horderly, hfinite.subset hadvances.unsettled_subset,
      Set.ncard_le_ncard hadvances.unsettled_subset hfinite⟩
  fun_induction run budget w with
  | case1 budget w hstack => exact hstack
  | case2 budget w c rest hstack ih =>
      obtain ⟨horderly, hfinite', hle⟩ := hstep h (.leave hstack) hfinite
      exact ih horderly hfinite' (hle.trans hbudget)
  | case3 budget w c rest hstack hentry ih =>
      obtain ⟨horderly, hfinite', hle⟩ := hstep h (.settled hstack hentry) hfinite
      exact ih horderly hfinite' (hle.trans hbudget)
  | case4 budget w c rest hstack raw hentry ih =>
      obtain ⟨horderly, hfinite', hle⟩ := hstep h (.literal hstack hentry) hfinite
      exact ih horderly hfinite' (hle.trans hbudget)
  | case5 w c rest hstack f hentry =>
      -- A formula is entered while the budget is zero, but then no cell is left to enter.
      have hlt := ncard_unsettled_openFormula_lt h hfinite hstack hentry
      omega
  | case6 w c rest hstack f hentry budget ih =>
      have hlt := ncard_unsettled_openFormula_lt h hfinite hstack hentry
      obtain ⟨horderly, hfinite', -⟩ := hstep h (.formula hstack hentry) hfinite
      exact ih horderly hfinite' (by omega)

/-- A budget for all the cells that there can be is enough. -/
theorem Orderly.stack_run_of_tidy {w : Walk} (h : w.Orderly []) (htidy : w.sheet.store.Tidy)
    {budget : Nat} (hbudget : w.sheet.cellBound ≤ budget) : (run budget w).stack = [] := by
  obtain ⟨hfinite, hcard⟩ := ncard_cells_le htidy
  have hsubset : w.unsettled ⊆
      {c | w.sheet.store.contains c = true ∨ w.sheet.inBounds c = true} := fun c hc => hc.1
  exact h.stack_run (hfinite.subset hsubset)
    (((Set.ncard_le_ncard hsubset hfinite).trans hcard).trans hbudget)

/-- The walk that evaluates a cell, before its first step. -/
def opening (s : Sheet) (c : Coord) : Walk :=
  ⟨{ s with stale := s.stale.insert c }, ∅, [.enter c]⟩

theorem busy_opening_iff (s : Sheet) (c d : Coord) : (opening s c).Busy d ↔ d = c := by
  simp [Busy, opening]

theorem current_opening_iff (s : Sheet) (c d : Coord) :
    (opening s c).sheet.Current d ↔ d ≠ c ∧ s.Current d := by
  unfold Current opening
  simp only [Std.HashSet.mem_insert, beq_iff_eq, not_or]
  constructor
  · rintro ⟨r, hr, hpending, hne, hstale⟩
    exact ⟨Ne.symm hne, r, hr, hpending, hstale⟩
  · rintro ⟨hne, r, hr, hpending, hstale⟩
    exact ⟨r, hr, hpending, Ne.symm hne, hstale⟩

end Walk

namespace Sheet

/-- No cell is being worked on. -/
def idle (_ : Coord) : Prop :=
  False

/-- A cell may be marked as stale when a walk is busy with it. -/
theorem Sound.opening {s : Sheet} (h : s.Sound idle) {c : Coord}
    (hc : s.store.contains c = true) :
    (Walk.opening s c).sheet.Sound (Walk.opening s c).Busy := by
  have hcurrent := Walk.current_opening_iff s c
  refine ⟨h.tidy, h.inGrid, h.converse, h.memo, ?_, ?_, h.bare, ?_, ?_⟩
  · intro d hd
    rcases Std.HashSet.mem_insert.mp hd with heq | hd
    · exact beq_iff_eq.mp heq ▸ hc
    · exact h.stale_recorded d hd
  · exact fun d hd => h.edges d ((hcurrent d).mp hd).2
  · intro d hd p hp
    rw [hcurrent, Walk.busy_opening_iff]
    rcases h.closed d ((hcurrent d).mp hd).2 p hp with hp | hp | hp
    · by_cases heq : p = c
      · exact .inr (.inl heq)
      · exact .inl ⟨heq, hp⟩
    · exact hp.elim
    · exact .inr (.inr hp)
  · exact fun d hd => h.fits d ((hcurrent d).mp hd).2

/-- A walk opens in order, whatever the sheet looks like. -/
theorem orderly_opening {s : Sheet} {c : Coord} (hc : s.store.contains c = true) :
    (Walk.opening s c).Orderly [] where
  mem_active_iff _ := iff_of_false Std.HashSet.not_mem_empty List.not_mem_nil
  nodup := List.nodup_nil
  chained := ⟨by simp [Walk.path], trivial⟩
  awaits := trivial
  recorded d hd := (Walk.busy_opening_iff s c d).mp hd ▸ hc
  formula _ hd := (List.not_mem_nil hd).elim
  unfinished _ hd := (Std.HashSet.not_mem_empty hd).elim

/-- A walk opens in a sound sheet. No text may wait to be computed unless its cell is stale, or
is the one that is evaluated. -/
theorem Sound.inv_opening {s : Sheet} (h : s.Sound idle) {c : Coord}
    (hknown : ∀ d, s.store.contains d = true → d ∈ s.stale ∨ s.Current d ∨ d = c)
    (hc : s.store.contains c = true) : (Walk.opening s c).Inv [] := by
  refine ⟨orderly_opening hc, h.opening hc, ?_⟩
  intro d hd
  rw [Walk.busy_opening_iff, Walk.current_opening_iff]
  by_cases heq : d = c
  · exact .inr (.inl heq)
  · rcases hknown d hd with hd | hd | hd
    · exact .inl (Std.HashSet.mem_insert.mpr (.inr hd))
    · exact .inr (.inr ⟨heq, hd⟩)
    · exact (heq hd).elim

/-- What evaluating a cell brings about. -/
structure Evaluates (s : Sheet) (c : Coord) (s' : Sheet) : Prop where
  toExtends : Extends s s'
  sound : s'.Sound idle
  known : ∀ d, s'.store.contains d = true → d ∈ s'.stale ∨ s'.Current d
  current : s'.store.contains c = true → s'.Current c
  built : ∀ d, s.Built d ∨ d = c → s'.Built d

/-- A run to the empty stack evaluates the cell that the walk was opened for. -/
theorem Sound.evaluates_run {s : Sheet} (h : s.Sound idle) {c : Coord}
    (hknown : ∀ d, s.store.contains d = true → d ∈ s.stale ∨ s.Current d ∨ d = c)
    (hc : s.store.contains c = true) :
    Evaluates s c (Walk.run s.cellBound (Walk.opening s c)).sheet := by
  have hopening := h.inv_opening hknown hc
  -- The run ends with an empty stack, so nothing that was begun is left undone.
  obtain ⟨hinv, hprogress⟩ := hopening.steps (Walk.reflTransGen_run s.cellBound _)
  have hempty : (Walk.run s.cellBound (Walk.opening s c)).stack = [] :=
    hopening.stack_run_of_tidy h.tidy (Nat.le_refl _)
  have hidle := Walk.not_busy_of_nil hempty
  have hbusy : (Walk.opening s c).Busy c := (Walk.busy_opening_iff s c c).mpr rfl
  have hcurrent := (hprogress.busy c hbusy).resolve_left (hidle c)
  have hext := hprogress.toExtends
  refine ⟨⟨hext.settings_eq, hext.template_eq, hext.cascade_eq, hext.materialized_eq,
    hext.text?_eq, hext.contains, ?_⟩, ?_, ?_, fun _ => hcurrent, ?_⟩
  · intro d hd
    rcases Std.HashSet.mem_insert.mp (hext.stale d hd) with heq | hd'
    · obtain ⟨r, -, -, hstale⟩ := hcurrent
      exact (hstale (beq_iff_eq.mp heq ▸ hd)).elim
    · exact hd'
  · exact hinv.sound.mono_busy fun d hd => (hidle d hd).elim
  · exact fun d hd => (hinv.known d hd).imp_right fun hd => hd.resolve_left (hidle d)
  · intro d hd
    refine (hprogress.built d (hd.imp_right fun heq => ?_)).resolve_right (hidle d)
    exact heq ▸ hbusy

/-- Once a cell has been written from the template, only that cell may wait to be computed. -/
theorem known_synthesize {s : Sheet} {c : Coord}
    (hknown : ∀ d, s.store.contains d = true → d ∈ s.stale ∨ s.Current d ∨ d = c) (d : Coord)
    (hd : (s.synthesize c).store.contains d = true) :
    d ∈ (s.synthesize c).stale ∨ (s.synthesize c).Current d ∨ d = c := by
  rw [stale_synthesize, current_synthesize_iff]
  rcases contains_of_synthesize hd with hd | heq
  · exact hknown d hd
  · exact .inr (.inr heq)

/-- Evaluating a cell keeps a sound sheet sound and makes the cell current, if it has a record
or the template has text for it. -/
theorem Sound.evaluate {s : Sheet} (h : s.Sound idle) {c : Coord}
    (hknown : ∀ d, s.store.contains d = true → d ∈ s.stale ∨ s.Current d ∨ d = c) :
    Evaluates s c (s.evaluate c) := by
  have hext := extends_synthesize s c
  have hknown' := known_synthesize hknown
  have hbuilt : ∀ d, s.Built d ∨ d = c → (s.synthesize c).Built d ∨ d = c := by
    intro d hd
    by_cases heq : d = c
    · exact .inr heq
    · exact .inl ((hd.resolve_right heq).synthesize heq)
  unfold Sheet.evaluate
  simp only
  split
  · next hc =>
    have hrun := (h.synthesize c).evaluates_run hknown' hc
    exact ⟨hext.trans hrun.toExtends, hrun.sound, hrun.known, hrun.current,
      fun d hd => hrun.built d (hbuilt d hd)⟩
  · next hc =>
    have hnone := Store.get?_eq_none_of_not_contains hc
    have hsound := h.synthesize c
    refine ⟨hext, hsound, ?_, fun hrecord => (hc hrecord).elim, ?_⟩
    · intro d hd
      exact (hknown' d hd).imp_right fun hd' => hd'.resolve_right fun heq => hc (heq ▸ hd)
    · intro d hd
      rcases hbuilt d hd with hd | rfl
      · exact hd
      · exact hsound.built_of_get?_eq_none hnone

end Sheet

end LiveSheet
