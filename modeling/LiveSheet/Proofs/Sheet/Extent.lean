import LiveSheet.Proofs.Sheet.Evaluation

/-! # How far an evaluation goes

An evaluation comes to its own cell, and from a formula that it comes to it goes on to whatever the
formula refers to that has to be computed: to no other cell, whatever the sheet looks like. Only
there it writes template text and brings stale cells up to date. If the records refer to nothing
that the template has still to write, the cells with a record after the evaluation are therefore
those from before and those that its cell leads to. -/

namespace LiveSheet

namespace Sheet

variable {s : Sheet} {c p : Coord}

/-- The cell has to be computed: its value is pending or may be out of date, or the template has
still to write it. -/
def Due (s : Sheet) (c : Coord) : Prop :=
  (∃ r, s.store.get? c = some r ∧ (r.value = .pending ∨ c ∈ s.stale)) ∨
    s.store.get? c = none ∧ s.templateText? c ≠ none

/-- A cell with text is due unless it is current. -/
theorem due_iff : s.Due c ↔ s.text? c ≠ none ∧ ¬s.Current c := by
  unfold Due
  cases hr : s.store.get? c with
  | none => simp [text?_of_get?_eq_none hr, not_current_of_get?_eq_none hr]
  | some r =>
      have htext : s.text? c ≠ none :=
        text?_ne_none_of_contains ((Store.contains_iff_get? _ _).mpr ⟨r, hr⟩)
      simp [Current, hr, htext, or_iff_not_imp_left]

/-- The formula of a cell refers to a cell that has to be computed. -/
def Demands (s : Sheet) (c p : Coord) : Prop :=
  s.text?.Refers c p ∧ s.Due p

end Sheet

namespace Walk

open Sheet

variable {s : Sheet} {w w' : Walk} {root c p : Coord} {rest : List Visit}

/-- A walk that was opened for `root` keeps to the cells that `root` leads to by demands. -/
structure Confined (s : Sheet) (root : Coord) (w : Walk) : Prop where
  text?_eq : w.sheet.text? = s.text?
  current : ∀ c, s.Current c → w.sheet.Current c ∨ c = root
  recorded : ∀ c, w.sheet.store.contains c = true →
    s.store.contains c = true ∨ Relation.ReflTransGen s.Demands root c
  stale : ∀ c ∈ s.stale, c ∈ w.sheet.stale ∨ Relation.ReflTransGen s.Demands root c
  busy : ∀ c, w.Busy c → Relation.ReflTransGen s.Demands root c

theorem confined_opening (s : Sheet) (root : Coord) :
    (opening (s.synthesize root) root).Confined s root where
  text?_eq := (extends_synthesize s root).text?_eq
  current c hc := by
    rw [current_opening_iff, current_synthesize_iff, and_iff_left hc]
    exact (em (c = root)).symm
  recorded c hc := by
    refine (contains_of_synthesize hc).imp_right fun heq => ?_
    rw [heq]
  stale c hc := .inl (Std.HashSet.mem_insert.mpr (.inr (stale_synthesize s root ▸ hc)))
  busy c hc := by
    rw [(busy_opening_iff _ root c).mp hc]

/-- What is scheduled has not been current before either, so it was due from the beginning. -/
theorem Confined.schedule (h : w.Confined s root) (hc : Relation.ReflTransGen s.Demands root c)
    (hcp : s.text?.Refers c p) : (w.schedule p).Confined s root := by
  rcases schedule_cases w p with ⟨heq, -⟩ | ⟨heq, hcontains, hdue⟩
  · rwa [heq]
  · have hext := extends_synthesize w.sheet p
    have htext := hext.text?_eq.trans h.text?_eq
    have hp : Relation.ReflTransGen s.Demands root p := by
      by_cases hroot : p = root
      · rw [hroot]
      · refine hc.tail ⟨hcp, due_iff.mpr ⟨htext ▸ text?_ne_none_of_contains hcontains, ?_⟩⟩
        exact fun hcurrent => (h.current p hcurrent).elim hdue hroot
    rw [heq]
    refine ⟨htext, fun d hd => ?_, fun d hd => ?_, fun d hd => ?_, fun d hd => ?_⟩
    · exact (h.current d hd).imp_left (current_synthesize_iff w.sheet p d).mpr
    · rcases contains_of_synthesize hd with hd | rfl
      · exact h.recorded d hd
      · exact .inr hp
    · exact (h.stale d hd).imp_left fun hd => (stale_synthesize w.sheet p).symm ▸ hd
    · rcases (busy_iff rfl d).mp hd with rfl | hd
      · exact hp
      · exact h.busy d hd

theorem Confined.foldl_schedule (h : w.Confined s root)
    (hc : Relation.ReflTransGen s.Demands root c) {todo : List Coord}
    (htodo : ∀ p ∈ todo, s.text?.Refers c p) :
    (todo.foldl Walk.schedule w).Confined s root := by
  induction todo generalizing w with
  | nil => exact h
  | cons p rest ih =>
      exact ih (h.schedule hc (htodo p List.mem_cons_self))
        fun q hq => htodo q (List.mem_cons_of_mem _ hq)

/-- Finishing the cell on top of the stack writes no cell. -/
theorem Confined.finish (h : w.Confined s root) {v : Visit} (hstack : w.stack = v :: rest)
    (htop : w.sheet.store.contains v.cell = true) {value : CellValue} {s' : Sheet}
    (hfinishes : Finishes w.sheet v.cell value s') (active : Std.HashSet Coord) :
    Confined s root ⟨s', active, rest⟩ where
  text?_eq := hfinishes.text?_eq.trans h.text?_eq
  current d hd := (h.current d hd).imp_left fun hd =>
    (hfinishes.current_iff htop d).mpr (.inr hd)
  recorded d hd := h.recorded d ((hfinishes.contains_iff d).mp hd)
  stale d hd := by
    by_cases hcell : d = v.cell
    · exact .inr (h.busy d ((busy_iff hstack d).mpr (.inl hcell)))
    · exact (h.stale d hd).imp_left fun hd => (hfinishes.mem_stale_iff d).mpr ⟨hd, hcell⟩
  busy d hd := h.busy d ((busy_iff hstack d).mpr (.inr hd))

theorem Confined.step (h : w.Confined s root) (horderly : w.Orderly []) (hstep : Step w w') :
    w'.Confined s root := by
  cases hstep with
  | @leave c rest hstack =>
      obtain ⟨raw, hraw, hformula⟩ := horderly.exists_formula hstack
      have hfinishes : Finishes w.sheet (Visit.leave c).cell _ _ :=
        finishes_complete hraw hformula w.active
      exact h.finish hstack (contains_of_raw? hraw) hfinishes _
  | @settled c rest hstack hentry =>
      exact ⟨h.text?_eq, h.current, h.recorded, h.stale,
        fun p hp => h.busy p ((busy_iff hstack p).mpr (.inr hp))⟩
  | @literal c rest raw hstack hentry =>
      obtain ⟨-, hraw, hliteral⟩ := entry_eq_literal hentry
      have hfinishes : Finishes w.sheet (Visit.enter c).cell _ _ :=
        finishes_literal hraw hliteral
      exact h.finish hstack (contains_of_raw? hraw) hfinishes _
  | @formula c rest f hstack hentry =>
      obtain ⟨-, -, raw, hraw, hformula, rfl⟩ := entry_eq_formula hentry
      have hc := h.busy c ((busy_iff hstack c).mpr (.inl rfl))
      have hopened : Confined s root ⟨w.sheet, w.active.insert c, .leave c :: rest⟩ :=
        ⟨h.text?_eq, h.current, h.recorded, h.stale, fun p hp =>
          h.busy p ((busy_iff hstack p).mpr ((busy_iff (v := .leave c) rfl p).mp hp))⟩
      refine hopened.foldl_schedule hc fun p hp => ?_
      have htext : s.text? c = some raw := h.text?_eq ▸ text?_of_raw? hraw
      exact (Writing.refers_iff htext hformula).mpr hp

theorem Confined.steps (h : w.Confined s root) (horderly : w.Orderly [])
    (hsteps : Relation.ReflTransGen Step w w') : w'.Confined s root := by
  induction hsteps with
  | refl => exact h
  | tail hsteps hstep ih => exact ih.step (horderly.steps hsteps).1 hstep

end Walk

namespace Sheet

variable {s s' : Sheet} {c d p : Coord}

/-- The records refer to nothing that the template has still to write. -/
def ClosedRecords (s : Sheet) : Prop :=
  ∀ c p, s.written.Refers c p → s.text? p ≠ none → s.store.contains p = true

/-- References lead from a record to cells with a record and to blank ones. -/
theorem ClosedRecords.contains_of_path (h : s.ClosedRecords) (hc : s.store.contains c = true)
    (hpath : Relation.ReflTransGen s.text?.Refers c d) (hd : s.text? d ≠ none) :
    s.store.contains d = true := by
  induction hpath with
  | refl => exact hc
  | tail _ hab ih =>
      -- A cell that refers to another has text, so the induction hypothesis applies to it.
      obtain ⟨raw, hraw, -⟩ := hab.exists_formula
      have ha := ih (by rw [hraw]; exact Option.some_ne_none raw)
      exact h _ _ ((refers_written_iff ha).mpr hab) hd

/-- Evaluating a cell leaves records that refer to nothing unwritten, if all other records were
like that before. -/
theorem Evaluates.closedRecords (h : Evaluates s c s')
    (hstale : ∀ d ∈ s.stale, s.store.contains d = true)
    (hclosed : ∀ d p, d ≠ c → s.written.Refers d p → s.text? p ≠ none →
      s.store.contains p = true) : s'.ClosedRecords := by
  intro d p hdp hp
  have hd := contains_of_refers hdp
  -- A record from before refers to what it did; the others have just been computed.
  by_cases hold : d ≠ c ∧ s.store.contains d = true
  · obtain ⟨hne, hd'⟩ := hold
    rw [Writing.Refers, Writing.references_congr (h.toExtends.written hd')] at hdp
    exact h.toExtends.contains p (hclosed d p hne hdp (h.toExtends.text?_eq ▸ hp))
  · have hcurrent : s'.Current d := by
      by_cases hdc : d = c
      · subst hdc
        exact h.current hd
      · refine (h.known d hd).resolve_left fun hd' => hold ⟨hdc, ?_⟩
        exact hstale d (h.toExtends.stale d hd')
    rcases h.sound.closed d hcurrent p ((refers_written_iff hd).mp hdp) with hp' | hp' | hp'
    · exact hp'.contains
    · exact hp'.elim
    · exact (hp hp').elim

/-- A cell that has text has a record once it has been evaluated. -/
theorem contains_evaluate_self (hc : s.text? c ≠ none) :
    (s.evaluate c).store.contains c = true := by
  have hwritten := contains_synthesize_self hc
  unfold Sheet.evaluate
  rw [if_pos hwritten]
  exact ((orderly_opening hwritten).steps (Walk.reflTransGen_run _ _)).2.toExtends.contains c
    hwritten

/-- An evaluation keeps to the cells that its own cell leads to. -/
theorem confined_evaluate (hc : s.text? c ≠ none) :
    ∃ w : Walk, w.Confined s c ∧ w.sheet = s.evaluate c := by
  have hwritten := contains_synthesize_self hc
  refine ⟨_, (Walk.confined_opening s c).steps (orderly_opening hwritten)
    (Walk.reflTransGen_run (s.synthesize c).cellBound _), ?_⟩
  unfold Sheet.evaluate
  rw [if_pos hwritten]
  rfl

theorem evaluate_eq_self (hc : s.text? c = none) : s.evaluate c = s := by
  have hnone := get?_eq_none_of_text? hc
  have hsynthesize : s.synthesize c = s := by
    rcases synthesize_cases s c with ⟨heq, -⟩ | ⟨raw, -, htext, -⟩
    · exact heq
    · rw [text?_of_get?_eq_none hnone, htext] at hc
      cases hc
  unfold Sheet.evaluate
  rw [hsynthesize, if_neg]
  rw [(Store.contains_eq_false_iff _ _).mpr hnone]
  exact Bool.false_ne_true

/-- Demands are references. -/
theorem refers_of_demands (h : Relation.ReflTransGen s.Demands c d) :
    Relation.ReflTransGen s.text?.Refers c d :=
  h.lift id fun _ _ hab => hab.1

/-- An evaluation writes no cell that its own cell does not lead to. -/
theorem contains_of_evaluate (hd : (s.evaluate c).store.contains d = true) :
    s.store.contains d = true ∨ Relation.ReflTransGen s.text?.Refers c d := by
  by_cases hc : s.text? c = none
  · rw [evaluate_eq_self hc] at hd
    exact .inl hd
  · obtain ⟨w, hconfined, heq⟩ := confined_evaluate hc
    rw [← heq] at hd
    exact (hconfined.recorded d hd).imp_right refers_of_demands

/-- An evaluation brings no cell up to date that its own cell does not lead to. -/
theorem stale_of_evaluate (hd : d ∈ s.stale) :
    d ∈ (s.evaluate c).stale ∨ Relation.ReflTransGen s.text?.Refers c d := by
  by_cases hc : s.text? c = none
  · rw [evaluate_eq_self hc]
    exact .inl hd
  · obtain ⟨w, hconfined, heq⟩ := confined_evaluate hc
    rw [← heq]
    exact (hconfined.stale d hd).imp_right refers_of_demands

/-- After an evaluation the cells with a record are those from before and those with text that
its cell leads to. -/
theorem contains_evaluate_iff (h : s.Sound idle)
    (hknown : ∀ d, s.store.contains d = true → d ∈ s.stale ∨ s.Current d ∨ d = c)
    (hclosed : (s.evaluate c).ClosedRecords) (d : Coord) :
    (s.evaluate c).store.contains d = true ↔ s.store.contains d = true ∨
      (s.text? d ≠ none ∧ Relation.ReflTransGen s.text?.Refers c d) := by
  have hext := (h.evaluate hknown).toExtends
  constructor
  · intro hd
    refine (contains_of_evaluate hd).imp_right fun hpath => ⟨?_, hpath⟩
    exact hext.text?_eq ▸ text?_ne_none_of_contains hd
  · rintro (hd | ⟨hd, hpath⟩)
    · exact hext.contains d hd
    · have hc : s.text? c ≠ none := by
        rcases Relation.ReflTransGen.cases_head hpath with rfl | ⟨p, hcp, -⟩
        · exact hd
        · obtain ⟨raw, hraw, -⟩ := hcp.exists_formula
          rw [hraw]
          exact Option.some_ne_none raw
      rw [← hext.text?_eq] at hd hpath
      exact hclosed.contains_of_path (contains_evaluate_self hc) hpath hd

end Sheet

end LiveSheet
