import LiveSheet.Proofs.Sheet.Soundness
import LiveSheet.Sheet.Evaluation

/-! # Settling a cell

Literals and formulas are finished alike: the cell gets a value, is stale no longer, and has
exactly the edges of its text, whatever the sheet looks like. A sheet stays sound if the new value
fits, and if what the cell refers to is current or still being worked on. -/

namespace LiveSheet.Sheet

/-- From `s` to `s'` the cell `c` is computed to be `value`. -/
structure Finishes (s : Sheet) (c : Coord) (value : CellValue) (s' : Sheet) : Prop where
  settings_eq : s'.settings = s.settings
  template_eq : s'.template = s.template
  cascade_eq : s'.cascade = s.cascade
  materialized_eq : s'.materialized = s.materialized
  store_eq : s'.store = s.store.setValue c value
  stale_eq : s'.stale = s.stale.erase c
  ne_pending : value ≠ .pending
  precedents_iff : ∀ p d, p ∈ s'.graph.precedents d ↔
    if d = c then s.written.Refers c p else p ∈ s.graph.precedents d

namespace Finishes

variable {s s' : Sheet} {c : Coord} {value : CellValue}

theorem get?_eq (h : Finishes s c value s') (d : Coord) :
    s'.store.get? d =
      if d = c then (s.store.get? d).map fun r => { r with value } else s.store.get? d := by
  rw [h.store_eq, Store.get?_setValue]

theorem written_eq (h : Finishes s c value s') : s'.written = s.written := by
  funext d
  rw [written, written, h.store_eq, Store.raw?_setValue]

theorem text?_eq (h : Finishes s c value s') : s'.text? = s.text? := by
  funext d
  have hraw : s'.store.raw? d = s.store.raw? d := congrFun h.written_eq d
  rw [text?, text?, hraw, templateText?, templateText?, inBounds_congr h.settings_eq, h.template_eq]

theorem mem_stale_iff (h : Finishes s c value s') (d : Coord) :
    d ∈ s'.stale ↔ d ∈ s.stale ∧ d ≠ c := by
  rw [h.stale_eq, Coord.mem_erase_iff]

theorem get?_eq_none_iff (h : Finishes s c value s') (d : Coord) :
    s'.store.get? d = none ↔ s.store.get? d = none := by
  rw [h.get?_eq]
  split <;> simp

theorem contains_iff (h : Finishes s c value s') (d : Coord) :
    s'.store.contains d = true ↔ s.store.contains d = true := by
  rw [← Bool.not_eq_false, ← Bool.not_eq_false, Store.contains_eq_false_iff,
    Store.contains_eq_false_iff, h.get?_eq_none_iff]

theorem toExtends (h : Finishes s c value s') : Extends s s' where
  settings_eq := h.settings_eq
  template_eq := h.template_eq
  cascade_eq := h.cascade_eq
  materialized_eq := h.materialized_eq
  text?_eq := h.text?_eq
  contains d hd := (h.contains_iff d).mpr hd
  stale d hd := ((h.mem_stale_iff d).mp hd).1

theorem current_iff (h : Finishes s c value s') (hc : s.store.contains c = true) (d : Coord) :
    s'.Current d ↔ d = c ∨ s.Current d := by
  unfold Current
  rw [h.get?_eq, h.mem_stale_iff]
  by_cases hd : d = c
  · subst hd
    obtain ⟨r, hr⟩ := (Store.contains_iff_get? _ _).mp hc
    simp [hr, h.ne_pending]
  · simp [hd]

theorem value_eq (h : Finishes s c value s') (hc : s.store.contains c = true) (d : Coord) :
    s'.store.value d = if d = c then value else s.store.value d := by
  unfold Store.value
  rw [h.get?_eq]
  by_cases hd : d = c
  · subst hd
    obtain ⟨r, hr⟩ := (Store.contains_iff_get? _ _).mp hc
    simp [hr]
  · simp [hd]

/-- The settled cell has the edges of its text, and no other cell has other edges than
before. -/
theorem edgesMatch (h : Finishes s c value s') (d : Coord) (hd : d ≠ c → s.EdgesMatch d) :
    s'.EdgesMatch d := by
  intro p
  rw [h.precedents_iff, h.written_eq]
  split
  · next heq => rw [heq]
  · next hne => exact hd hne p

end Finishes

/-- A cell is finished in a sheet that remembers right results, and whose graph can be read in both
directions. -/
structure Settles (s : Sheet) (c : Coord) (value : CellValue) (s' : Sheet) : Prop
    extends Finishes s c value s' where
  memo : s'.memo.Sound .ofNumbers
  converse : s'.graph.Converse

/-- Settling a cell keeps the sheet sound. Work that was busy with the cell may end. -/
theorem Settles.sound {s s' : Sheet} {c : Coord} {value : CellValue} {busy busy' : Coord → Prop}
    (h : Settles s c value s') (hs : s.Sound busy)
    (hc : s.store.contains c = true) (hbusy : ∀ p, busy p → p = c ∨ busy' p)
    (hrefers : ∀ p, s.text?.Refers c p →
      p = c ∨ s.Current p ∨ busy' p ∨ s.text? p = none)
    (hfits : s.text?.Fits s.inBounds c value) : s'.Sound busy' where
  tidy := h.store_eq ▸ hs.tidy.setValue c value
  inGrid d r hr := by
    have hd : s'.store.contains d = true := (Store.contains_iff_get? _ _).mpr ⟨r, hr⟩
    obtain ⟨r', hr'⟩ := (Store.contains_iff_get? _ _).mp ((h.contains_iff d).mp hd)
    rw [inBounds_congr h.settings_eq]
    exact hs.inGrid d r' hr'
  converse := h.converse
  memo := h.memo
  stale_recorded d hd := (h.contains_iff d).mpr (hs.stale_recorded d (h.toExtends.stale d hd))
  edges d hd := h.edgesMatch d fun hne =>
    hs.edges d (((h.current_iff hc d).mp hd).resolve_left hne)
  bare d hd := h.edgesMatch d fun _ => hs.bare d ((h.get?_eq_none_iff d).mp hd)
  closed d hd p hp := by
    rw [h.text?_eq] at hp ⊢
    rw [h.current_iff hc]
    rcases (h.current_iff hc d).mp hd with rfl | hd
    · rcases hrefers p hp with heq | hp | hp | hp
      · exact .inl (.inl heq)
      · exact .inl (.inr hp)
      · exact .inr (.inl hp)
      · exact .inr (.inr hp)
    · rcases hs.closed d hd p hp with hp | hp | hp
      · exact .inl (.inr hp)
      · rcases hbusy p hp with heq | hp
        · exact .inl (.inl heq)
        · exact .inr (.inl hp)
      · exact .inr (.inr hp)
  fits d hd := by
    rw [h.text?_eq, inBounds_congr h.settings_eq, h.value_eq hc]
    split
    · next heq => exact heq ▸ hfits
    · next hne => exact hs.fits d (((h.current_iff hc d).mp hd).resolve_left hne)

/-! ## Formulas -/

/-- What an evaluation finds for a reference: a cell that it has not left yet is circular. -/
def operandOf (s : Sheet) (active : Std.HashSet Coord) (p : Coord) : Except CellError Float :=
  if active.contains p then .error .circular
  else Formula.operandIn s.inBounds s.store.value p

theorem operandsOnto_eq (s : Sheet) (active : Std.HashSet Coord) (done : List Float)
    (cells : List Coord) :
    s.operandsOnto active done cells =
      (cells.mapM (s.operandOf active)).map (done.reverse ++ ·) := by
  induction cells generalizing done with
  | nil => simp [operandsOnto, Except.map, pure, Except.pure]
  | cons p rest ih =>
      have hlook : s.operandsOnto active done (p :: rest) =
          (s.operandOf active p).bind fun x => s.operandsOnto active (x :: done) rest := by
        simp only [operandsOnto, operandOf, Formula.operandIn]
        by_cases hactive : active.contains p = true
        · simp only [hactive, if_true, Except.bind]
        · by_cases hgrid : s.inBounds p = true
          · simp only [hactive, hgrid, Bool.not_true, Bool.false_eq_true, if_false, if_true]
            cases (s.store.value p).operand <;> rfl
          · simp only [hactive, hgrid, Bool.not_false, Bool.false_eq_true, if_false, if_true,
              Except.bind]
      rw [hlook, List.mapM_cons]
      cases s.operandOf active p with
      | error e => rfl
      | ok x =>
          change s.operandsOnto active (x :: done) rest = _
          rw [ih]
          cases rest.mapM (s.operandOf active) with
          | error e => rfl
          | ok xs => simp [Except.map, bind, Except.bind, pure, Except.pure]

theorem operands_counters (s : Sheet) (counters : Counters) (active : Std.HashSet Coord)
    (f : Formula) : operands { s with counters } active f = s.operands active f := by
  unfold operands
  rw [operandsOnto_eq, operandsOnto_eq]
  rfl

/-- A formula gets the value that its operands give it. -/
theorem memo_value {s : Sheet} (h : s.memo.Sound .ofNumbers) (active : Std.HashSet Coord)
    (raw : String) :
    (s.memo.value (.ofRaw raw) (s.operands active (.ofRaw raw))).1 =
        (Formula.ofRaw raw).valueBy (s.operandOf active) ∧
      (s.memo.value (.ofRaw raw) (s.operands active (.ofRaw raw))).2.Sound .ofNumbers := by
  unfold operands Formula.valueBy
  cases (Formula.ofRaw raw).referenceError? with
  | some e => exact ⟨rfl, h⟩
  | none =>
      simp only [operandsOnto_eq]
      cases (Formula.ofRaw raw).references.mapM (s.operandOf active) with
      | error e => exact ⟨rfl, h⟩
      | ok inputs =>
          obtain ⟨hvalue, hmemo⟩ := h.evaluate raw inputs
          simp only [Except.map, List.reverse_nil, List.nil_append, Memo.value, ← hvalue]
          cases heval : s.memo.evaluate (.ofRaw raw) inputs with
          | mk result memo =>
              rw [heval] at hmemo
              cases result <;> exact ⟨rfl, hmemo⟩

theorem memo_value_ne_pending (m : Memo) (f : Formula)
    (inputs : Except CellError (List Float)) : (m.value f inputs).1 ≠ .pending := by
  unfold Memo.value
  split
  · simp
  · split <;> simp

theorem mem_precedents_iff_refers {s : Sheet} {c : Coord} {raw : String}
    (hraw : s.store.raw? c = some raw) (hformula : Formula.isFormula raw = true) (p : Coord) :
    p ∈ (Formula.ofRaw raw).precedents ↔ s.written.Refers c p := by
  rw [Writing.refers_iff (t := s.written) hraw hformula, Formula.precedents,
    Std.TreeSet.mem_ofList, List.contains_iff_mem]

/-- Counting a cycle changes nothing that the operands of a formula depend on. -/
theorem complete_eq {s : Sheet} {c : Coord} {raw : String} (hraw : s.store.raw? c = some raw)
    (active : Std.HashSet Coord) : ∃ counters, s.complete active c =
      finish { s with
        counters
        memo := (s.memo.value (.ofRaw raw) (s.operands active (.ofRaw raw))).2
        graph := s.graph.setPrecedents c (Formula.ofRaw raw).precedents } c
        (s.memo.value (.ofRaw raw) (s.operands active (.ofRaw raw))).1 := by
  have hcount : ∀ f, ∃ counters, s.countCycle active f = { s with counters } := by
    intro f
    unfold countCycle
    split
    · exact ⟨_, rfl⟩
    · exact ⟨s.counters, rfl⟩
  obtain ⟨counters, hs⟩ := hcount (.ofRaw raw)
  refine ⟨counters, ?_⟩
  simp only [complete, hraw, completeFormula, hs, operands_counters]

/-- Leaving a formula finishes its cell. -/
theorem finishes_complete {s : Sheet} {c : Coord} {raw : String}
    (hraw : s.store.raw? c = some raw) (hformula : Formula.isFormula raw = true)
    (active : Std.HashSet Coord) :
    Finishes s c (s.memo.value (.ofRaw raw) (s.operands active (.ofRaw raw))).1
      (s.complete active c) := by
  obtain ⟨counters, hcomplete⟩ := complete_eq hraw active
  rw [hcomplete]
  refine ⟨rfl, rfl, rfl, rfl, rfl, rfl, memo_value_ne_pending _ _ _, ?_⟩
  intro p d
  refine (Graph.mem_precedents_setPrecedents _ _ _ _ _).trans ?_
  rw [mem_precedents_iff_refers hraw hformula]

/-- If the memory is right, the value is the one that the operands give the formula. -/
theorem settles_complete {s : Sheet} {c : Coord} {raw : String} (hmemo : s.memo.Sound .ofNumbers)
    (hconverse : s.graph.Converse) (hraw : s.store.raw? c = some raw)
    (hformula : Formula.isFormula raw = true) (active : Std.HashSet Coord) :
    Settles s c ((Formula.ofRaw raw).valueBy (s.operandOf active)) (s.complete active c) := by
  obtain ⟨hvalue, hsound⟩ := memo_value hmemo active raw
  have hfinishes := finishes_complete hraw hformula active
  obtain ⟨counters, hcomplete⟩ := complete_eq hraw active
  rw [hvalue] at hfinishes
  refine ⟨hfinishes, ?_, ?_⟩ <;> rw [hcomplete]
  · exact hsound
  · exact hconverse.setPrecedents _ _

/-! ## Literals -/

theorem ofLiteral_ne_pending (raw : String) : CellValue.ofLiteral raw ≠ .pending := by
  unfold CellValue.ofLiteral
  split
  · simp
  · split
    · split <;> simp
    · simp

/-- A literal finishes its cell. -/
theorem finishes_literal {s : Sheet} {c : Coord} {raw : String}
    (hraw : s.store.raw? c = some raw) (hliteral : Formula.isFormula raw = false) :
    Finishes s c (.ofLiteral raw)
      (finish { s with graph := s.graph.removeCell c } c (.ofLiteral raw)) := by
  refine ⟨rfl, rfl, rfl, rfl, rfl, rfl, ofLiteral_ne_pending raw, ?_⟩
  intro p d
  refine (Graph.mem_precedents_removeCell _ _ _ _).trans ?_
  rw [Writing.Refers, Writing.references_of_literal (t := s.written) hraw hliteral]
  by_cases hd : d = c
  · simp [hd]
  · simp [hd]

theorem settles_literal {s : Sheet} {c : Coord} {raw : String} (hmemo : s.memo.Sound .ofNumbers)
    (hconverse : s.graph.Converse) (hraw : s.store.raw? c = some raw)
    (hliteral : Formula.isFormula raw = false) :
    Settles s c (.ofLiteral raw)
      (finish { s with graph := s.graph.removeCell c } c (.ofLiteral raw)) :=
  ⟨finishes_literal hraw hliteral, hmemo, hconverse.setPrecedents _ _⟩

end LiveSheet.Sheet
