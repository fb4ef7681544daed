import LiveSheet.Proofs.Session.Runs
import LiveSheet.Proofs.Sheet.Revision

/-! # Histories

The history of a run is the list of its edits that were not refused. Every operation revises the
texts by the edits that it accepts and by nothing else, so the texts after a run are those of
the template, revised by the history of the run. -/

namespace LiveSheet

/-- The edits that an operation asks for. -/
def Operation.edits : Operation → List (Coord × String)
  | .edit c raw => [(c, raw)]
  | .beginEdit c raw => [(c, raw)]
  | .editMany edits => edits
  | _ => []

/-- Edits made one after the other, each to its end. -/
def eachEdit (edits : List (Coord × String)) : List Operation :=
  edits.map fun edit => .edit edit.1 edit.2

namespace Session

variable {s : Session}

/-- The edits that an operation applies: none if it is refused. -/
def accepted (s : Session) : Operation → List (Coord × String)
  | .edit c raw =>
      match s.sheet.edit c raw with
      | .ok _ => [(c, raw)]
      | .error _ => []
  | .beginEdit c raw =>
      match s.sheet.beginEdit c raw with
      | .ok _ => [(c, raw)]
      | .error _ => []
  | .editMany edits =>
      match s.sheet.editMany edits with
      | .ok _ => edits
      | .error _ => []
  | _ => []

/-- The session after a run. -/
def performAll (s : Session) (operations : List Operation) : Session :=
  operations.foldl perform s

/-- The edits that a run applies, the first one first. -/
def history (s : Session) : List Operation → List (Coord × String)
  | [] => []
  | operation :: rest => s.accepted operation ++ (s.perform operation).history rest

theorem performAll_append (s : Session) (first rest : List Operation) :
    s.performAll (first ++ rest) = (s.performAll first).performAll rest :=
  List.foldl_append

theorem Reachable.performAll (h : s.Reachable) (operations : List Operation) :
    (s.performAll operations).Reachable := by
  induction operations generalizing s with
  | nil => exact h
  | cons operation rest ih => exact ih (h.perform operation)

/-! ## One operation -/

theorem revises_materializeRows {sheet : Sheet} (h : sheet.Furnished) {first stop : Nat}
    (hstop : stop ≤ sheet.settings.totalRows) :
    sheet.Revises [] (sheet.materializeRows first (stop - first)) :=
  (h.revises_materializeRows fun i hi => by omega).1

theorem Coherent.revises_writeBatch (h : s.Coherent) (hs : s.sheet.Furnished) {batch : Batch}
    (hbatch : s.population.nextBatch? = some batch) :
    s.sheet.Revises [] (s.writeBatch batch).sheet :=
  revises_materializeRows hs (h.rows ▸ Population.stop_le_totalRows hbatch)

theorem Coherent.revises_finishPass (h : s.Coherent) (hs : s.sheet.Furnished) (batches : Nat) :
    s.sheet.Revises [] (s.finishPass batches).2.sheet := by
  fun_induction Session.finishPass batches s with
  | case1 => exact hs.revises
  | case2 batches s batch hbatch _ ih =>
      have hrevises := h.revises_writeBatch hs hbatch
      exact hrevises.trans (ih (h.writeBatch hbatch) hrevises.furnished)

theorem revises_setViewport (hs : s.sheet.Furnished) (offset height : Float) :
    s.sheet.Revises [] (s.setViewport offset height).sheet := by
  unfold Session.setViewport
  simp only
  split
  · exact hs.revises
  · next band hband =>
    obtain ⟨-, hlast⟩ := band?_lt hband
    exact revises_materializeRows hs (by omega)

/-- An operation revises the texts by the edits that it applies. -/
theorem Coherent.revises_perform (h : s.Coherent) (hs : s.sheet.Furnished)
    (operation : Operation) :
    s.sheet.Revises (s.accepted operation) (s.perform operation).sheet := by
  cases operation with
  | edit c raw =>
      cases hedit : s.sheet.edit c raw with
      | error e =>
          simp only [accepted, Session.perform, hedit]
          exact hs.revises
      | ok result =>
          simp only [accepted, Session.perform, hedit]
          exact h.sheet.revises_edit hs hedit
  | beginEdit c raw =>
      cases hedit : s.sheet.beginEdit c raw with
      | error e =>
          simp only [accepted, Session.perform, hedit]
          exact hs.revises
      | ok sheet =>
          simp only [accepted, Session.perform, hedit]
          exact h.sheet.revises_beginEdit hs hedit
  | cascadeStep limit => exact hs.revises_upkeep (Sheet.upkeep_cascadeStep s.sheet limit)
  | editMany edits =>
      cases hedit : s.sheet.editMany edits with
      | error e =>
          simp only [accepted, Session.perform, hedit]
          exact hs.revises
      | ok result =>
          simp only [accepted, Session.perform, hedit]
          exact h.sheet.revises_editMany hs hedit
  | recalculateAll => exact hs.revises_upkeep (Sheet.upkeep_recalculateAll s.sheet)
  | evaluate c => exact hs.revises_evaluate c
  | setViewport offset height => exact revises_setViewport hs offset height
  | startPopulation => exact hs.revises
  | tick =>
      unfold Session.perform Session.tick
      cases hbatch : s.population.nextBatch? with
      | none => exact hs.revises
      | some batch => exact h.revises_writeBatch hs hbatch
  | populateAll => exact h.startPopulation.revises_finishPass hs 0

/-! ## Runs -/

theorem furnished_fresh (settings : Settings) (template : Template) :
    (Sheet.fresh settings template).Furnished := by
  refine .of_current (Sheet.coherent_fresh settings template) ?_ rfl fun row hrow => ?_
  · intro c hc
    obtain ⟨r, hr⟩ := (Store.contains_iff_get? _ _).mp hc
    cases (Store.get?_empty c).symm.trans hr
  · rw [Sheet.isMaterialized, Sheet.fresh, Std.HashSet.contains_empty] at hrow
    cases hrow

theorem start_eq_ok {settings : Settings} {template : Template}
    (h : Session.start settings template = .ok s) :
    settings.validate = .ok () ∧ s.sheet = .fresh settings template ∧
      s.population = .idle settings.totalRows settings.batchSize := by
  unfold Session.start at h
  split at h
  · cases h
  · next hvalid =>
    cases h
    exact ⟨hvalid, rfl, rfl⟩

theorem Reachable.furnished (h : s.Reachable) : s.sheet.Furnished := by
  induction h with
  | start h =>
      obtain ⟨-, hsheet, -⟩ := start_eq_ok h
      rw [hsheet]
      exact furnished_fresh _ _
  | perform h operation ih => exact (h.coherent.revises_perform ih operation).furnished

/-- A run revises the texts by its history. -/
theorem Reachable.revises_performAll (h : s.Reachable) (operations : List Operation) :
    s.sheet.Revises (s.history operations) (s.performAll operations).sheet := by
  induction operations generalizing s with
  | nil => exact h.furnished.revises
  | cons operation rest ih =>
      exact (h.coherent.revises_perform h.furnished operation).trans (ih (h.perform operation))

/-- The edits that an operation asks for are applied together, or not at all if one of them is
out of bounds. -/
theorem accepted_eq (s : Session) (operation : Operation) :
    s.accepted operation =
      if operation.edits.all fun edit => s.sheet.inBounds edit.1 then operation.edits else [] := by
  cases operation with
  | edit c raw =>
      simp only [accepted, Sheet.edit, Sheet.beginEdit, Operation.edits, List.all_cons,
        List.all_nil, Bool.and_true]
      cases s.sheet.inBounds c <;> rfl
  | beginEdit c raw =>
      simp only [accepted, Sheet.beginEdit, Operation.edits, List.all_cons, List.all_nil,
        Bool.and_true]
      cases s.sheet.inBounds c <;> rfl
  | editMany edits =>
      unfold accepted
      simp only
      split
      · next result hedits =>
        have hall := List.all_eq_true.mpr (Sheet.editMany_eq_ok hedits).1
        exact (if_pos hall).symm
      · next e hedits =>
        refine (if_neg fun hall => ?_).symm
        have hgrid : ∀ edit ∈ edits, s.sheet.inBounds edit.1 = true := List.all_eq_true.mp hall
        cases (Sheet.editMany_eq hgrid).symm.trans hedits
  | _ => rfl

/-- A refused operation changes nothing. -/
theorem perform_eq_of_refused {operation : Operation}
    (h : ∃ edit ∈ operation.edits, s.sheet.inBounds edit.1 = false) :
    s.perform operation = s := by
  obtain ⟨⟨c, raw⟩, hedit, hc⟩ := h
  cases operation with
  | edit c' raw' =>
      cases List.mem_singleton.mp hedit
      simp only [Session.perform, Sheet.edit, Sheet.beginEdit, hc, Bool.false_eq_true, if_false]
  | beginEdit c' raw' =>
      cases List.mem_singleton.mp hedit
      simp only [Session.perform, Sheet.beginEdit, hc, Bool.false_eq_true, if_false]
  | editMany edits =>
      cases hedits : s.sheet.editMany edits with
      | error e => simp only [Session.perform, hedits]
      | ok result =>
          have hgrid := (Sheet.editMany_eq_ok hedits).1 _ hedit
          cases hgrid.symm.trans hc
  | _ => cases hedit

/-- Which edits a run applies does not depend on what has been written. -/
theorem Reachable.history_eq (h : s.Reachable) (operations : List Operation) :
    s.history operations = operations.flatMap fun operation =>
      if operation.edits.all fun edit => s.sheet.inBounds edit.1 then operation.edits
      else [] := by
  induction operations generalizing s with
  | nil => rfl
  | cons operation rest ih =>
      have hsettings := (h.coherent.revises_perform h.furnished operation).settings_eq
      rw [history, accepted_eq, ih (h.perform operation), Sheet.inBounds_congr hsettings,
        List.flatMap_cons]

theorem Reachable.history_eachEdit (h : s.Reachable) {edits : List (Coord × String)}
    (hedits : ∀ edit ∈ edits, s.sheet.inBounds edit.1 = true) :
    s.history (eachEdit edits) = edits := by
  rw [h.history_eq, eachEdit, List.flatMap_map]
  induction edits with
  | nil => rfl
  | cons edit rest ih =>
      rw [List.flatMap_cons, ih fun e he => hedits e (List.mem_cons_of_mem edit he)]
      simp [Operation.edits, hedits edit List.mem_cons_self]

theorem settings_performAll {settings : Settings} {template : Template}
    (h : Session.start settings template = .ok s) (operations : List Operation) :
    (s.performAll operations).sheet.settings = settings ∧
      (s.performAll operations).sheet.template = template := by
  have hrevises := (Reachable.start h).revises_performAll operations
  obtain ⟨-, hsheet, -⟩ := start_eq_ok h
  rw [hrevises.settings_eq, hrevises.template_eq, hsheet]
  exact ⟨rfl, rfl⟩

theorem text?_fresh (settings : Settings) (template : Template) (c : Coord) :
    (Sheet.fresh settings template).text? c =
      if c.inGrid settings.totalRows settings.totalCols then template.text? c else none :=
  Sheet.text?_of_get?_eq_none (Store.get?_empty c)

/-- The texts after a run are those of its history, and where there are none those of the
template. -/
theorem text?_performAll {settings : Settings} {template : Template}
    (h : Session.start settings template = .ok s) (operations : List Operation) (c : Coord) :
    (s.performAll operations).sheet.text? c = (lastText? (s.history operations) c).or
      (if c.inGrid settings.totalRows settings.totalCols then template.text? c else none) := by
  have hrevises := (Reachable.start h).revises_performAll operations
  obtain ⟨-, hsheet, -⟩ := start_eq_ok h
  rw [hrevises.text?_eq, Writing.revise_apply, hsheet, text?_fresh]

/-- A run leaves no cycle behind if the formulas of its history and of the template refer to cells
of lower rank only. -/
theorem not_onCycle_of_rank {settings : Settings} {template : Template}
    (h : Session.start settings template = .ok s) (operations : List Operation)
    (rank : Coord → Nat)
    (hhistory : ∀ edit ∈ s.history operations, Formula.isFormula edit.2 = true →
      ∀ p ∈ (Formula.ofRaw edit.2).references, rank p < rank edit.1)
    (htemplate : ∀ c raw, template.text? c = some raw → Formula.isFormula raw = true →
      ∀ p ∈ (Formula.ofRaw raw).references, rank p < rank c) (c : Coord) :
    ¬(s.performAll operations).sheet.written.OnCycle c := by
  refine Writing.not_onCycle_of_rank rank (fun c raw hraw => ?_) c
  have htext := Sheet.text?_of_raw? hraw
  rw [text?_performAll h, Option.or_eq_some_iff] at htext
  rcases htext with hlast | ⟨-, htext⟩
  · exact hhistory _ (mem_of_lastText?_eq_some hlast)
  · split at htext
    · exact htemplate c raw htext
    · cases htext

/-- What a user has written is never overwritten, and what the template has is written only where
the user has written nothing. In every run, records are in the grid, a record holds the text of
the last edit of its cell that was not refused, or of the template if there was none, and every
edited cell has a record. No record is ever lost. -/
theorem raw_eq_last_edit {settings : Settings} {template : Template}
    (h : Session.start settings template = .ok s) (operations : List Operation) :
    (∀ c r, (s.performAll operations).sheet.store.get? c = some r →
      c.inGrid settings.totalRows settings.totalCols = true ∧
        some r.raw = (lastText? (s.history operations) c).or (template.text? c)) ∧
      (∀ edit ∈ s.history operations,
        (s.performAll operations).sheet.store.contains edit.1 = true) ∧
      ∀ first rest, operations = first ++ rest → ∀ c,
        (s.performAll first).sheet.store.contains c = true →
          (s.performAll operations).sheet.store.contains c = true := by
  have hreach : s.Reachable := .start h
  have hrevises := hreach.revises_performAll operations
  obtain ⟨-, hsheet, -⟩ := start_eq_ok h
  refine ⟨fun c r hr => ?_, hrevises.edited, ?_⟩
  · have hgrid := hrevises.furnished.sound.inGrid c r hr
    rw [Sheet.inBounds_congr hrevises.settings_eq, hsheet] at hgrid
    change c.inGrid settings.totalRows settings.totalCols = true at hgrid
    have htext := Sheet.text?_of_raw? ((Store.raw?_eq_some_iff _ _ _).mpr ⟨r, hr, rfl⟩)
    rw [text?_performAll h, if_pos hgrid] at htext
    exact ⟨hgrid, htext.symm⟩
  · rintro first rest rfl c hc
    rw [performAll_append]
    exact ((hreach.performAll first).revises_performAll rest).contains c hc

/-- Three edits of one cell and one that is refused. -/
theorem raw_eq_last_of_three_edits :
    let s := small.performAll [.beginEdit ⟨0, 0⟩ "1", .populateAll,
      .editMany [(⟨0, 0⟩, "2"), (⟨0, 0⟩, "3")], .edit ⟨2, 0⟩ "4", .evaluate ⟨0, 0⟩]
    ∃ r, s.sheet.store.get? ⟨0, 0⟩ = some r ∧ r.raw = "3" := by
  intro s
  obtain ⟨hraw, hedited, -⟩ := raw_eq_last_edit start_small [.beginEdit ⟨0, 0⟩ "1", .populateAll,
    .editMany [(⟨0, 0⟩, "2"), (⟨0, 0⟩, "3")], .edit ⟨2, 0⟩ "4", .evaluate ⟨0, 0⟩]
  rw [reachable_small.history_eq] at hraw hedited
  obtain ⟨r, hr⟩ := (Store.contains_iff_get? _ _).mp (hedited (⟨0, 0⟩, "1") (by decide))
  exact ⟨r, hr, Option.some.inj (hraw _ r hr).2⟩

end Session

end LiveSheet
