import LiveSheet.Proofs.Sheet.Agreement
import LiveSheet.Proofs.Sheet.Findings

/-! # Replays

What an evaluation does depends on the texts and on what is current, and on the values of current
cells only: results that are remembered are what computing them would give, and the edges are not
looked at. So two sheets that are alike in this go the same way, step by step, and stay alike.
When a recalculation begins no record is current, and so the texts alone decide what comes of it,
cycles or not. -/

namespace LiveSheet

namespace Sheet

variable {s s' s₁ s₁' : Sheet} {c p : Coord} {apart : Int}

/-- Both sheets have the same texts, and the same cells are stale or current in both, with the
same values if they are current. Their counters of cycles are a given number apart. -/
structure Twin (apart : Int) (s s' : Sheet) : Prop where
  settings_eq : s'.settings = s.settings
  template_eq : s'.template = s.template
  raw?_eq : ∀ c, s'.store.raw? c = s.store.raw? c
  stale_iff : ∀ c, c ∈ s'.stale ↔ c ∈ s.stale
  current_iff : ∀ c, s'.Current c ↔ s.Current c
  value_eq : ∀ c, s.Current c → s'.store.value c = s.store.value c
  cycles_eq : (s'.counters.cycles : Int) = s.counters.cycles + apart

namespace Twin

theorem contains_eq (h : Twin apart s s') (c : Coord) :
    s'.store.contains c = s.store.contains c :=
  Store.contains_congr h.raw?_eq c

theorem templateText?_eq (h : Twin apart s s') : s'.templateText? = s.templateText? :=
  templateText?_congr h.settings_eq h.template_eq

theorem text?_eq (h : Twin apart s s') : s'.text? = s.text? := by
  funext c
  rw [text?, text?, h.raw?_eq, h.templateText?_eq]

theorem stale_contains_eq (h : Twin apart s s') (c : Coord) :
    s'.stale.contains c = s.stale.contains c := by
  rw [Bool.eq_iff_iff, ← Std.HashSet.mem_iff_contains, ← Std.HashSet.mem_iff_contains,
    h.stale_iff]

theorem needsRefresh_eq (h : Twin apart s s') (c : Coord) :
    s'.needsRefresh c = s.needsRefresh c := by
  rw [Bool.eq_iff_iff, needsRefresh_eq_true_iff, needsRefresh_eq_true_iff, h.contains_eq,
    h.current_iff]

theorem synthesize (h : Twin apart s s') (c : Coord) :
    Twin apart (s.synthesize c) (s'.synthesize c) := by
  have hext := extends_synthesize s c
  have hext' := extends_synthesize s' c
  have hvalue : ∀ {s : Sheet} {d : Coord}, s.Current d →
      (s.synthesize c).store.value d = s.store.value d := fun {s} d hd =>
    (computes_synthesize s c).value_eq List.not_mem_nil hd.contains
  refine ⟨?_, ?_, fun d => ?_, fun d => ?_, fun d => ?_, fun d hd => ?_, ?_⟩
  · rw [hext'.settings_eq, hext.settings_eq, h.settings_eq]
  · rw [hext'.template_eq, hext.template_eq, h.template_eq]
  · unfold Sheet.synthesize
    rw [h.contains_eq, h.templateText?_eq]
    split
    · exact h.raw?_eq d
    · split
      · rw [Store.raw?_setRaw, Store.raw?_setRaw, h.raw?_eq]
      · exact h.raw?_eq d
  · rw [stale_synthesize, stale_synthesize, h.stale_iff]
  · rw [current_synthesize_iff, current_synthesize_iff, h.current_iff]
  · rw [current_synthesize_iff] at hd
    rw [hvalue ((h.current_iff d).mpr hd), hvalue hd, h.value_eq d hd]
  · rw [counters_synthesize, counters_synthesize, h.cycles_eq]

/-- Finishing the same cell with the same value keeps the sheets alike. -/
theorem finishes (h : Twin apart s s') {value : CellValue} (hfinishes : Finishes s c value s₁)
    (hfinishes' : Finishes s' c value s₁') (hc : s.store.contains c = true)
    (hcycles : (s₁'.counters.cycles : Int) = s₁.counters.cycles + apart) :
    Twin apart s₁ s₁' := by
  have hc' : s'.store.contains c = true := (h.contains_eq c).trans hc
  refine ⟨?_, ?_, fun d => ?_, fun d => ?_, fun d => ?_, fun d hd => ?_, hcycles⟩
  · rw [hfinishes'.settings_eq, hfinishes.settings_eq, h.settings_eq]
  · rw [hfinishes'.template_eq, hfinishes.template_eq, h.template_eq]
  · rw [hfinishes'.store_eq, hfinishes.store_eq, Store.raw?_setValue, Store.raw?_setValue,
      h.raw?_eq]
  · rw [hfinishes'.mem_stale_iff, hfinishes.mem_stale_iff, h.stale_iff]
  · rw [hfinishes'.current_iff hc', hfinishes.current_iff hc, h.current_iff]
  · rw [hfinishes'.value_eq hc', hfinishes.value_eq hc]
    split
    · rfl
    · next hne => exact h.value_eq d (((hfinishes.current_iff hc d).mp hd).resolve_left hne)

end Twin

end Sheet

namespace Walk

open Sheet

variable {w w' : Walk} {c p : Coord} {rest : List Visit} {apart : Int} {budget : Nat}

/-! ## The same walk in both sheets -/

/-- Both walks are at the same point, in sheets that are alike. -/
structure Twin (apart : Int) (w w' : Walk) : Prop where
  sheet : Sheet.Twin apart w.sheet w'.sheet
  active_eq : w'.active = w.active
  stack_eq : w'.stack = w.stack

namespace Twin

theorem entry_eq (h : Twin apart w w') (c : Coord) : w'.entry c = w.entry c := by
  rw [entry, entry, h.active_eq, h.sheet.needsRefresh_eq, h.sheet.raw?_eq]

/-- Both walks go on below the step on top. -/
theorem pop (h : Twin apart w w') (rest : List Visit) :
    Twin apart { w with stack := rest } { w' with stack := rest } :=
  ⟨h.sheet, h.active_eq, rfl⟩

theorem schedule (h : Twin apart w w') (p : Coord) :
    Twin apart (w.schedule p) (w'.schedule p) := by
  have hsynthesize := h.sheet.synthesize p
  unfold Walk.schedule
  rw [h.active_eq]
  split
  · exact h
  · simp only [hsynthesize.needsRefresh_eq]
    split
    · exact ⟨hsynthesize, rfl, congrArg (Visit.enter p :: ·) h.stack_eq⟩
    · exact ⟨hsynthesize, rfl, h.stack_eq⟩

theorem foldl_schedule (h : Twin apart w w') (todo : List Coord) :
    Twin apart (todo.foldl Walk.schedule w) (todo.foldl Walk.schedule w') := by
  induction todo generalizing w w' with
  | nil => exact h
  | cons p rest ih => exact ih (h.schedule p)

theorem openFormula (h : Twin apart w w') (c : Coord) (f : Formula) :
    Twin apart (w.openFormula c f) (w'.openFormula c f) := by
  have hopened : Twin apart { w with active := w.active.insert c, stack := .leave c :: w.stack }
      { w' with active := w'.active.insert c, stack := .leave c :: w'.stack } :=
    ⟨h.sheet, congrArg (·.insert c) h.active_eq, congrArg (Visit.leave c :: ·) h.stack_eq⟩
  exact hopened.foldl_schedule f.references

theorem literal (h : Twin apart w w') {raw : String} (hentry : w.entry c = .literal raw) :
    Twin apart (w.settleLiteral c raw) (w'.settleLiteral c raw) := by
  obtain ⟨-, hraw, hliteral⟩ := entry_eq_literal hentry
  have hraw' := (h.sheet.raw?_eq c).trans hraw
  exact ⟨h.sheet.finishes (finishes_literal hraw hliteral) (finishes_literal hraw' hliteral)
    (contains_of_raw? hraw) h.sheet.cycles_eq, h.active_eq, h.stack_eq⟩

/-- A formula that is left finds the same operands: each of its references is active in both
walks, current in both, or blank in both. -/
theorem leave (h : Twin apart w w') (hinv : w.Inv []) (hinv' : w'.Inv [])
    (hstack : w.stack = .leave c :: rest) :
    Twin apart (w.leaveFormula c) (w'.leaveFormula c) := by
  obtain ⟨raw, hraw, hformula⟩ := hinv.exists_formula hstack
  have hraw' := (h.sheet.raw?_eq c).trans hraw
  have hoperand : ∀ p ∈ (Formula.ofRaw raw).references,
      w'.sheet.operandOf w.active p = w.sheet.operandOf w.active p := by
    intro p hp
    have hcp := (Writing.refers_iff (text?_of_raw? hraw) hformula).mpr hp
    rw [operandOf, operandOf, inBounds_congr h.sheet.settings_eq, Formula.operandIn,
      Formula.operandIn]
    rcases hinv.ready hstack hcp with hactive | hcurrent | hblank
    · rw [if_pos (Std.HashSet.mem_iff_contains.mp hactive),
        if_pos (Std.HashSet.mem_iff_contains.mp hactive)]
    · rw [h.sheet.value_eq p hcurrent]
    · have hblank' : w'.sheet.text? p = none := by rw [h.sheet.text?_eq, hblank]
      rw [Store.value_of_get?_eq_none (get?_eq_none_of_text? hblank),
        Store.value_of_get?_eq_none (get?_eq_none_of_text? hblank')]
  have hsettles := settles_complete hinv.sound.memo hinv.sound.converse hraw hformula w.active
  have hsettles' := settles_complete hinv'.sound.memo hinv'.sound.converse hraw' hformula w.active
  rw [Formula.valueBy_congr _ hoperand] at hsettles'
  have hcycles : ((w'.sheet.complete w.active c).counters.cycles : Int) =
      (w.sheet.complete w.active c).counters.cycles + apart := by
    rw [cycles_complete hraw, cycles_complete hraw']
    have hbefore := h.sheet.cycles_eq
    omega
  refine ⟨?_, congrArg (·.erase c) h.active_eq, h.stack_eq⟩
  change Sheet.Twin apart (w.sheet.complete w.active c) (w'.sheet.complete w'.active c)
  rw [h.active_eq]
  exact h.sheet.finishes hsettles.toFinishes hsettles'.toFinishes (contains_of_raw? hraw) hcycles

end Twin

/-! ## Runs -/

/-- Twins run alike. -/
theorem Twin.run (h : Twin apart w w') (hinv : w.Inv []) (hinv' : w'.Inv []) (budget : Nat) :
    Twin apart (run budget w) (run budget w') := by
  fun_induction Walk.run budget w generalizing w' with
  | case1 budget w hstack =>
      rwa [run_of_nil (h.stack_eq.trans hstack)]
  | case2 budget w c rest hstack ih =>
      have hstack' := h.stack_eq.trans hstack
      rw [run_of_leave hstack']
      refine ih ?_ (hinv.step (.leave hstack)).1 (hinv'.step (.leave hstack')).1
      exact (h.leave hinv hinv' hstack).pop rest
  | case3 budget w c rest hstack hentry ih =>
      have hstack' := h.stack_eq.trans hstack
      have hentry' := (h.entry_eq c).trans hentry
      rw [run_of_enter hstack', hentry']
      exact ih (h.pop rest) (hinv.step (.settled hstack hentry)).1
        (hinv'.step (.settled hstack' hentry')).1
  | case4 budget w c rest hstack raw hentry ih =>
      have hstack' := h.stack_eq.trans hstack
      have hentry' := (h.entry_eq c).trans hentry
      rw [run_of_enter hstack', hentry']
      exact ih ((h.literal hentry).pop rest) (hinv.step (.literal hstack hentry)).1
        (hinv'.step (.literal hstack' hentry')).1
  | case5 w c rest hstack f hentry =>
      have hstack' := h.stack_eq.trans hstack
      rw [run_of_enter hstack', (h.entry_eq c).trans hentry]
      exact h
  | case6 w c rest hstack f hentry budget ih =>
      have hstack' := h.stack_eq.trans hstack
      have hentry' := (h.entry_eq c).trans hentry
      rw [run_of_enter hstack', hentry']
      exact ih ((h.pop rest).openFormula c f) (hinv.step (.formula hstack hentry)).1
        (hinv'.step (.formula hstack' hentry')).1

end Walk

namespace Sheet

variable {s s' : Sheet} {c : Coord} {apart : Int}

/-! ## Evaluations and recalculations -/

theorem Twin.opening (h : Twin apart s s') (c : Coord) :
    Walk.Twin apart (Walk.opening s c) (Walk.opening s' c) where
  sheet :=
    { h with
      stale_iff d := by
        change d ∈ s'.stale.insert c ↔ d ∈ s.stale.insert c
        rw [Std.HashSet.mem_insert, Std.HashSet.mem_insert, h.stale_iff]
      current_iff d := by
        rw [Walk.current_opening_iff, Walk.current_opening_iff, h.current_iff]
      value_eq d hd := h.value_eq d ((Walk.current_opening_iff s c d).mp hd).2 }
  active_eq := rfl
  stack_eq := rfl

/-- Evaluating the same cell keeps the sheets alike. -/
theorem Twin.evaluate (h : Twin apart s s') (hs : s.Sound idle) (hs' : s'.Sound idle)
    (hknown : ∀ d, s.store.contains d = true → d ∈ s.stale ∨ s.Current d ∨ d = c)
    (hknown' : ∀ d, s'.store.contains d = true → d ∈ s'.stale ∨ s'.Current d ∨ d = c) :
    Twin apart (s.evaluate c) (s'.evaluate c) := by
  have hsynthesize := h.synthesize c
  have hcontains := hsynthesize.contains_eq c
  unfold Sheet.evaluate
  simp only [hcontains]
  split
  · next hc =>
    have hc' := hcontains.trans hc
    have hinv := (hs.synthesize c).inv_opening (known_synthesize hknown) hc
    have hinv' := (hs'.synthesize c).inv_opening (known_synthesize hknown') hc'
    -- The budgets may differ, but both walks end before theirs is used up.
    have hbudget := Walk.run_eq_of_le
      (hinv.stack_run_of_tidy (hs.synthesize c).tidy (Nat.le_refl _))
      (Nat.le_max_left (s.synthesize c).cellBound (s'.synthesize c).cellBound)
    have hbudget' := Walk.run_eq_of_le
      (hinv'.stack_run_of_tidy (hs'.synthesize c).tidy (Nat.le_refl _))
      (Nat.le_max_right (s.synthesize c).cellBound (s'.synthesize c).cellBound)
    have hrun := ((hsynthesize.opening c).run hinv hinv'
      (max (s.synthesize c).cellBound (s'.synthesize c).cellBound)).sheet
    rw [hbudget, hbudget'] at hrun
    exact hrun
  · exact hsynthesize

theorem Twin.refresh (h : Twin apart s s') (hs : s.Sound idle) (hs' : s'.Sound idle)
    (hknown : ∀ d, s.store.contains d = true → d ∈ s.stale ∨ s.Current d)
    (hknown' : ∀ d, s'.store.contains d = true → d ∈ s'.stale ∨ s'.Current d) (c : Coord) :
    Twin apart (s.refresh c) (s'.refresh c) := by
  unfold Sheet.refresh
  rw [h.stale_contains_eq]
  split
  · exact h.evaluate hs hs' (fun d hd => (hknown d hd).imp_right .inl)
      fun d hd => (hknown' d hd).imp_right .inl
  · exact h

theorem Twin.foldl_refresh (h : Twin apart s s') (hs : s.Sound idle) (hs' : s'.Sound idle)
    (hknown : ∀ d, s.store.contains d = true → d ∈ s.stale ∨ s.Current d)
    (hknown' : ∀ d, s'.store.contains d = true → d ∈ s'.stale ∨ s'.Current d)
    (cells : List Coord) :
    Twin apart (cells.foldl Sheet.refresh s) (cells.foldl Sheet.refresh s') := by
  induction cells generalizing s s' with
  | nil => exact h
  | cons c rest ih =>
      have hev := hs.refresh hknown c
      have hev' := hs'.refresh hknown' c
      exact ih (h.refresh hs hs' hknown hknown' c) hev.sound hev'.sound hev.known hev'.known

/-- When every record is stale the texts are all that counts. -/
theorem twin_markAll (hs : s.Sound idle) (hs' : s'.Sound idle)
    (hsettings : s'.settings = s.settings) (htemplate : s'.template = s.template)
    (hraw : ∀ c, s'.store.raw? c = s.store.raw? c) :
    Twin (s'.counters.cycles - s.counters.cycles) s.markAll s'.markAll := by
  have hstale : ∀ {s : Sheet}, s.Sound idle → ∀ c,
      c ∈ s.markAll.stale ↔ s.store.contains c = true := fun h c =>
    ⟨h.markAll.stale_recorded c, mem_stale_markAll h.tidy⟩
  refine ⟨hsettings, htemplate, hraw, fun c => ?_, fun c => ?_, fun c hc => ?_, ?_⟩
  · rw [hstale hs', hstale hs, Store.contains_congr hraw]
  · exact iff_of_false (not_current_markAll hs'.tidy c) (not_current_markAll hs.tidy c)
  · exact (not_current_markAll hs.tidy c hc).elim
  · change (s'.counters.cycles : Int) = s.counters.cycles + (s'.counters.cycles - s.counters.cycles)
    omega

/-- Sheets with the same texts in their records are alike once they have been recalculated. -/
theorem Sound.twin_recalculateAll (hs : s.Sound idle) (hs' : s'.Sound idle)
    (hsettings : s'.settings = s.settings) (htemplate : s'.template = s.template)
    (hraw : ∀ c, s'.store.raw? c = s.store.raw? c) :
    Twin (s'.counters.cycles - s.counters.cycles) s.recalculateAll.2 s'.recalculateAll.2 := by
  obtain ⟨hcoords, hformulas⟩ := Store.coords_congr hs.tidy hs'.tidy hraw
  have hcells : s'.recalculateAll.2 =
      (s.store.formulaCells ++ s.store.coords).foldl Sheet.refresh s'.markAll := by
    rw [← hcoords, ← hformulas]
    rfl
  rw [hcells]
  exact (twin_markAll hs hs' hsettings htemplate hraw).foldl_refresh hs.markAll hs'.markAll
    (fun _ hd => .inl (mem_stale_markAll hs.tidy hd))
    (fun _ hd => .inl (mem_stale_markAll hs'.tidy hd)) _

end Sheet

end LiveSheet
