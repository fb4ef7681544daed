import LiveSheet.Proofs.BlockGrid.Bands
import LiveSheet.Proofs.Session.Bookkeeping

/-! # What is shown

The rows that the viewport asked for last stay on show until it asks for others, whatever else
the session is used for. They have been written and remain so. The records in these rows are
therefore all that there is to show, and a cell without one is blank for good. -/

namespace LiveSheet

namespace Store

variable {s : Store} {first last : Nat}

theorem mem_rows_fst_iff (h : s.Tidy) (c : Coord) :
    c ∈ (s.rows first last).map Prod.fst ↔
      first ≤ c.row ∧ c.row ≤ last ∧ s.contains c = true := by
  simp only [rows, List.mem_map, Prod.exists, exists_and_right, exists_eq_right,
    h.tidy.mem_rows_iff, exists_and_left, contains_iff_get?]
  rfl

theorem ascending_rows (h : s.Tidy) (first last : Nat) :
    Coord.Ascending ((s.rows first last).map Prod.fst) :=
  h.tidy.ascending_rows first last

end Store

/-- A cell of a written row that has no record is blank. -/
theorem Sheet.read_of_isMaterialized {s : Sheet} {c : Coord}
    (hrow : s.isMaterialized c.row = true) (hc : s.store.get? c = none) :
    s.read c = ⟨c, none, .empty⟩ := by
  simp only [read, hc, hrow, Bool.not_true, Bool.false_and, Bool.false_eq_true, if_false]

/-- The operation asks for rows to show. -/
def Operation.Scrolls : Operation → Prop
  | .setViewport .. => True
  | _ => False

namespace Session

open Sheet

variable {s : Session} {offset height : Float} {band : RowBand} {operations : List Operation}

/-! ## The rows on show -/

theorem visible_finishPass (batches : Nat) (s : Session) :
    (s.finishPass batches).2.visible = s.visible := by
  fun_induction Session.finishPass batches s with
  | case1 => rfl
  | case2 batches s batch _ _ ih => exact ih

theorem visible_perform (s : Session) {operation : Operation} (h : ¬operation.Scrolls) :
    (s.perform operation).visible = s.visible := by
  cases operation with
  | edit c raw | beginEdit c raw | editMany edits =>
      unfold Session.perform
      simp only
      split <;> rfl
  | cascadeStep limit | recalculateAll | evaluate c | startPopulation => rfl
  | setViewport offset height => exact (h trivial).elim
  | tick =>
      unfold Session.perform Session.tick
      cases s.population.nextBatch? <;> rfl
  | populateAll => exact visible_finishPass 0 s.startPopulation

theorem visible_performAll (s : Session)
    (h : ∀ operation ∈ operations, ¬operation.Scrolls) :
    (s.performAll operations).visible = s.visible := by
  induction operations generalizing s with
  | nil => rfl
  | cons operation rest ih =>
      have hrest := ih (s.perform operation) fun next hnext => h next (List.mem_cons_of_mem _ hnext)
      exact hrest.trans (s.visible_perform (h operation List.mem_cons_self))

/-! ## The cells on show -/

/-- The records of the rows on show are read in row-major order, each once. -/
theorem readVisible_eq (h : s.Reachable) (hvisible : s.visible = some band) :
    ∃ cells : List Coord, s.readVisible = cells.map s.sheet.read ∧ Coord.Ascending cells ∧
      ∀ c, c ∈ cells ↔ band.contains c.row = true ∧ s.sheet.store.contains c = true := by
  have htidy := h.furnished.sound.tidy
  refine ⟨(s.sheet.store.rows band.first band.last).map Prod.fst, ?_,
    Store.ascending_rows htidy _ _, fun c => ?_⟩
  · simp only [readVisible, hvisible, List.map_map]
    rfl
  · rw [Store.mem_rows_fst_iff htidy, RowBand.contains_iff, and_assoc]

/-- In a written row the cells without a record are those that are blank. -/
theorem Reachable.blank_of_isMaterialized (h : s.Reachable)
    (htemplate : s.sheet.template.Announces s.sheet.settings.totalCols) {c : Coord}
    (hrow : s.sheet.isMaterialized c.row = true) (hgrid : s.sheet.inBounds c = true)
    (hc : ¬s.sheet.store.contains c = true) :
    s.sheet.template.text? c = none ∧ s.sheet.read c = ⟨c, none, .empty⟩ := by
  refine ⟨?_, read_of_isMaterialized hrow (Store.get?_eq_none_of_not_contains hc)⟩
  by_contra htext
  exact hc (h.furnished.contains_of_isMaterialized h.marksInGrid htemplate hrow
    (inBounds_iff.mp hgrid).2 htext)

/-- What is shown misses nothing and invents nothing, if the template announces its rows. From the
scroll that asked for a band of rows up to the next scroll, the cells shown are the cells of these
rows that have a record, in strictly increasing row-major order and as they are read. All other
cells of these rows are blank: the template has no text for them, and they read as empty. -/
theorem readVisible_complete (h : s.Reachable)
    (htemplate : s.sheet.template.Announces s.sheet.settings.totalCols)
    (hvisible : (s.setViewport offset height).visible = some band)
    (hoperations : ∀ operation ∈ operations, ¬operation.Scrolls) :
    let t := (s.setViewport offset height).performAll operations
    t.visible = some band ∧
      ∃ cells : List Coord, t.readVisible = cells.map t.sheet.read ∧ Coord.Ascending cells ∧
        (∀ c, c ∈ cells ↔ band.contains c.row = true ∧ t.sheet.store.contains c = true) ∧
        ∀ c, t.sheet.inBounds c = true → band.contains c.row = true → c ∉ cells →
          t.sheet.template.text? c = none ∧ t.sheet.read c = ⟨c, none, .empty⟩ := by
  intro t
  have hscrolled : (s.setViewport offset height).Reachable := h.perform (.setViewport _ _)
  have hreach : t.Reachable := hscrolled.performAll operations
  have hrevises := (h.revises_perform (.setViewport offset height)).trans
    (hscrolled.revises_performAll operations)
  have hshown : t.visible = some band :=
    ((s.setViewport offset height).visible_performAll hoperations).trans hvisible
  obtain ⟨cells, hread, hascending, hcells⟩ := readVisible_eq hreach hshown
  refine ⟨hshown, cells, hread, hascending, hcells, fun c hgrid hrow hc => ?_⟩
  have hmarked : t.sheet.isMaterialized c.row = true :=
    (hscrolled.revises_performAll operations).materialized c.row
      (h.isMaterialized_of_visible hvisible hrow)
  refine hreach.blank_of_isMaterialized ?_ hmarked hgrid fun hcontains =>
    hc ((hcells c).mpr ⟨hrow, hcontains⟩)
  rw [hrevises.settings_eq, hrevises.template_eq]
  exact htemplate

/-- A running sum is shown below its seed, also after the seed has been edited. -/
theorem mem_readVisible_running_sum :
    ∃ s, Session.start { totalRows := 2, totalCols := 2 } (.chain "1") = .ok s ∧
      let t := (s.setViewport 0 48).performAll [.beginEdit ⟨0, 0⟩ "5", .cascadeStep 1]
      t.sheet.read ⟨1, 1⟩ ∈ t.readVisible := by
  obtain ⟨s, hs, hvisible⟩ :
      ∃ s, Session.start { totalRows := 2, totalCols := 2 } (.chain "1") = .ok s ∧
        (s.setViewport 0 48).visible = some ⟨0, 1⟩ := by
    refine ⟨_, rfl, ?_⟩
    rw [visible_setViewport]
    decide +kernel
  refine ⟨s, hs, ?_⟩
  intro t
  have htemplate : s.sheet.template.Announces s.sheet.settings.totalCols := by
    rw [(start_eq_ok hs).2.1]
    exact (Template.announces_chain_iff "1" 2).mpr (by decide)
  have hoperations : ∀ operation ∈ [Operation.beginEdit ⟨0, 0⟩ "5", .cascadeStep 1],
      ¬operation.Scrolls := by
    simp only [List.forall_mem_cons, Operation.Scrolls, not_false_eq_true, List.not_mem_nil,
      false_implies, implies_true, and_true]
  obtain ⟨-, cells, hread, -, -, hblank⟩ :=
    readVisible_complete (.start hs) htemplate hvisible hoperations
  obtain ⟨hsettings, htemplate'⟩ : t.sheet.settings = _ ∧ t.sheet.template = _ :=
    settings_performAll hs [.setViewport 0 48, .beginEdit ⟨0, 0⟩ "5", .cascadeStep 1]
  have hgrid : t.sheet.inBounds ⟨1, 1⟩ = true := by
    rw [inBounds, hsettings]
    rfl
  have htext : t.sheet.template.text? ⟨1, 1⟩ ≠ none := by
    rw [htemplate']
    exact (Template.chainText?_ne_none_iff "1" ⟨1, 1⟩).mpr (.inl rfl)
  have hmem : ⟨1, 1⟩ ∈ cells := by
    by_contra hc
    exact htext (hblank ⟨1, 1⟩ hgrid rfl hc).1
  exact hread ▸ List.mem_map_of_mem hmem

end Session

end LiveSheet
