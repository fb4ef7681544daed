import LiveSheet.Proofs.Sheet.Edits
import LiveSheet.Proofs.Sheet.Extent

/-! # What is stale no longer

An evaluation brings its own cell up to date and every stale cell that it leads to along
references, and it leaves all others as they were. An edit marks what depends on its cell and
evaluates the cell; the writing of rows evaluates cells that have no record. So what is stale
after either of them follows from the texts. -/

namespace LiveSheet

namespace Sheet

variable {s s' : Sheet} {c d : Coord} {raw : String}

/-- References lead from what is current to what is current and to blank cells. -/
theorem Sound.current_of_path (h : s.Sound idle) (hc : s.Current c)
    (hpath : Relation.ReflTransGen s.text?.Refers c d) (hd : s.text? d ≠ none) :
    s.Current d := by
  induction hpath with
  | refl => exact hc
  | @tail a b _ hab ih =>
      obtain ⟨raw, hraw, -⟩ := hab.exists_formula
      have ha := ih (by rw [hraw]; exact Option.some_ne_none raw)
      rcases h.closed a ha b hab with hb | hb | hb
      · exact hb
      · exact hb.elim
      · exact (hd hb).elim

theorem Sound.not_stale_of_path (h : s.Sound idle) (hc : s.Current c)
    (hpath : Relation.ReflTransGen s.text?.Refers c d) : d ∉ s.stale := by
  intro hstale
  have htext := text?_ne_none_of_contains (h.stale_recorded d hstale)
  obtain ⟨r, -, -, hfresh⟩ := h.current_of_path hc hpath htext
  exact hfresh hstale

/-- An evaluation brings up to date what its cell leads to, and nothing else. -/
theorem mem_stale_evaluate_iff (h : s.Sound idle)
    (hknown : ∀ d, s.store.contains d = true → d ∈ s.stale ∨ s.Current d ∨ d = c) :
    d ∈ (s.evaluate c).stale ↔
      d ∈ s.stale ∧ ¬Relation.ReflTransGen s.text?.Refers c d := by
  have hev := h.evaluate hknown
  constructor
  · intro hstale
    have hd := hev.toExtends.stale d hstale
    refine ⟨hd, fun hpath => ?_⟩
    -- The cell has text, because it is the stale cell or refers to something.
    have hc : s.text? c ≠ none := by
      rcases Relation.ReflTransGen.cases_head hpath with rfl | ⟨p, hcp, -⟩
      · exact text?_ne_none_of_contains (h.stale_recorded c hd)
      · obtain ⟨raw, hraw, -⟩ := hcp.exists_formula
        rw [hraw]
        exact Option.some_ne_none raw
    have hcurrent := hev.current (contains_evaluate_self hc)
    rw [← hev.toExtends.text?_eq] at hpath
    exact hev.sound.not_stale_of_path hcurrent hpath hstale
  · rintro ⟨hd, hpath⟩
    exact (stale_of_evaluate hd).resolve_right hpath

/-- An edit leaves stale what was stale before or depended on its cell, unless the new text leads
there. -/
theorem Coherent.mem_stale_beginEdit_iff (h : s.Coherent) (hs' : s.beginEdit c raw = .ok s') :
    d ∈ s'.stale ↔ (d ∈ s.stale ∨ Relation.TransGen s.graph.Edge c d) ∧
      ¬Relation.ReflTransGen s'.text?.Refers c d := by
  obtain ⟨hc, rfl⟩ := beginEdit_eq_ok hs'
  have hiff : d ∈ ((s.overwrite c raw).evaluate c).stale ↔ _ :=
    mem_stale_evaluate_iff (h.sound_overwrite hc) (h.known_overwrite raw)
  rw [h.mem_stale_overwrite_iff, ← (h.evaluates_overwrite raw hc).toExtends.text?_eq] at hiff
  generalize (s.overwrite c raw).evaluate c = s₁ at *
  exact hiff

/-! ## Writing rows -/

/-- What the writing of rows does to a sheet: it evaluates cells that have no record but text by
the template, and marks rows. -/
inductive Fills (s : Sheet) : Sheet → Prop
  | start : Fills s s
  | evaluate {s' : Sheet} {c : Coord} (h : Fills s s') (hnone : s'.store.contains c = false)
      (htext : s'.templateText? c ≠ none) : Fills s (s'.evaluate c)
  | mark {s' : Sheet} (h : Fills s s') (row : Nat) : Fills s (s'.markMaterialized row)

/-- Nothing has been lost or has become stale, and no text is another one. -/
structure Grows (s s' : Sheet) : Prop where
  text?_eq : s'.text? = s.text?
  contains : ∀ c, s.store.contains c = true → s'.store.contains c = true
  stale : ∀ c ∈ s'.stale, c ∈ s.stale

namespace Fills

theorem keeps (h : s.Fills s') (hs : s.Coherent) : s.Keeps s' := by
  induction h with
  | start => exact hs.keeps
  | evaluate _ _ _ ih => exact ih.evaluate _
  | mark _ row ih => exact ih.markMaterialized row

theorem grows (h : s.Fills s') (hs : s.Coherent) : s.Grows s' := by
  induction h with
  | start => exact ⟨rfl, fun _ hd => hd, fun _ hd => hd⟩
  | @evaluate s' c h _ _ ih =>
      have hext := ((h.keeps hs).coherent.evaluates c).toExtends
      exact ⟨hext.text?_eq.trans ih.text?_eq, fun d hd => hext.contains d (ih.contains d hd),
        fun d hd => ih.stale d (hext.stale d hd)⟩
  | @mark s' h row ih =>
      obtain ⟨materialized, heq⟩ := markMaterialized_eq s' row
      rw [heq]
      exact ⟨ih.text?_eq, ih.contains, ih.stale⟩

/-- A cell that is stale no longer is read by a cell that has been written. -/
theorem stale_or_reached (h : s.Fills s') (hs : s.Coherent) (hd : d ∈ s.stale) :
    d ∈ s'.stale ∨ ∃ c, s.store.contains c = false ∧ s'.store.contains c = true ∧
      Relation.ReflTransGen s.text?.Refers c d := by
  induction h with
  | start => exact .inl hd
  | @evaluate s' c h hnone htext ih =>
      have hgrows := h.grows hs
      have hs' := (h.keeps hs).coherent
      rcases ih with hd | ⟨b, hb, hb', hpath⟩
      · refine (stale_of_evaluate hd).imp_right fun hpath => ⟨c, ?_, ?_, ?_⟩
        · by_contra hcontains
          rw [hgrows.contains c (Bool.not_eq_false _ ▸ hcontains)] at hnone
          cases hnone
        · refine contains_evaluate_self ?_
          rwa [text?_of_get?_eq_none ((Store.contains_eq_false_iff _ _).mp hnone)]
        · rwa [← hgrows.text?_eq]
      · exact .inr ⟨b, hb, (hs'.evaluates c).toExtends.contains b hb', hpath⟩
  | @mark s' h row ih =>
      obtain ⟨materialized, heq⟩ := markMaterialized_eq s' row
      rw [heq]
      exact ih

/-- The writing of rows brings up to date what the cells that it writes lead to, and nothing
else. -/
theorem mem_stale_iff (h : s.Fills s') (hs : s.Coherent) : d ∈ s'.stale ↔ d ∈ s.stale ∧
    ∀ c, s.store.contains c = false → s'.store.contains c = true →
      ¬Relation.ReflTransGen s.text?.Refers c d := by
  have hgrows := h.grows hs
  constructor
  · intro hd
    refine ⟨hgrows.stale d hd, fun c hnone hc hpath => ?_⟩
    have hs' := (h.keeps hs).coherent
    -- A cell that has just been written was not stale before, so it is current.
    have hcurrent : s'.Current c := (hs'.known hc).resolve_left fun hstale => by
      rw [hs.sound.stale_recorded c (hgrows.stale c hstale)] at hnone
      cases hnone
    rw [← hgrows.text?_eq] at hpath
    exact hs'.sound.not_stale_of_path hcurrent hpath hd
  · rintro ⟨hd, hunread⟩
    refine (h.stale_or_reached hs hd).resolve_right ?_
    rintro ⟨c, hnone, hc, hpath⟩
    exact hunread c hnone hc hpath

theorem fold {n : Nat} {f : (i : Nat) → i < n → Sheet → Sheet} (h : s.Fills s')
    (hstep : ∀ i hi s', s.Fills s' → s.Fills (f i hi s')) : s.Fills (n.fold f s') := by
  induction n with
  | zero => exact h
  | succ n ih =>
      rw [Nat.fold_succ]
      exact hstep n _ _ (ih fun i hi => hstep i _)

end Fills

/-- A record is left as it is when rows are written: none is left to be computed for the first
time, and whether it is stale makes no difference. -/
theorem Coherent.fillCell_eq_self (h : s.Coherent) (hc : s.store.contains c = true) :
    s.fillCell c = s := by
  obtain ⟨r, hr⟩ := (Store.contains_iff_get? _ _).mp hc
  have hpending : r.value.isPending = false := by
    simpa [CellValue.isPending] using (h.built c).1 r hr
  unfold Sheet.fillCell
  simp only [hr, hpending, Bool.false_eq_true, if_false]

namespace Fills

theorem fillCell (h : s.Fills s') (hs : s.Coherent) (hc : s.inBounds c = true) :
    s.Fills (s'.fillCell c) := by
  have hs' := h.keeps hs
  cases hcontains : s'.store.contains c with
  | true => rwa [hs'.coherent.fillCell_eq_self hcontains]
  | false =>
      have hnone := (Store.contains_eq_false_iff _ _).mp hcontains
      cases htext : s'.templateText? c with
      | some raw =>
          rw [fillCell_of_templateText? hnone htext]
          exact h.evaluate hcontains (htext ▸ Option.some_ne_none raw)
      | none =>
          rw [templateText?, inBounds_congr hs'.settings_eq, if_pos hc] at htext
          unfold Sheet.fillCell
          simpa only [hnone, htext] using h

theorem materializeRow (h : s.Fills s') (hs : s.Coherent) {row : Nat}
    (hrow : row < s.settings.totalRows) : s.Fills (s'.materializeRow row) := by
  unfold Sheet.materializeRow
  split
  · exact h
  · split
    · refine .mark ?_ row
      unfold fillRow
      refine h.fold fun col hcol s₁ h₁ => h₁.fillCell hs (inBounds_iff.mpr ⟨hrow, ?_⟩)
      rwa [← (h.keeps hs).settings_eq]
    · exact h.mark row

end Fills

theorem Coherent.fills_materializeRows (h : s.Coherent) {first count : Nat}
    (hrows : ∀ i < count, first + i < s.settings.totalRows) :
    s.Fills (s.materializeRows first count) :=
  Fills.start.fold fun i hi _ h₁ => h₁.materializeRow h (hrows i hi)

/-- Rows that are marked as written are passed over. -/
theorem materializeRows_eq_self {first count : Nat}
    (hrows : ∀ i < count, s.isMaterialized (first + i) = true) :
    s.materializeRows first count = s := by
  unfold materializeRows
  induction count with
  | zero => rfl
  | succ n ih =>
      rw [Nat.fold_succ, ih fun i hi => hrows i (Nat.lt_succ_of_lt hi), materializeRow,
        if_pos (hrows n (Nat.lt_succ_self n))]

/-- In a row that has been written only stale cells are shown as pending. -/
theorem Coherent.read_eq_pending_iff (h : s.Coherent) (hrow : s.isMaterialized c.row = true) :
    (s.read c).value = .pending ↔ c ∈ s.stale := by
  unfold read
  cases hr : s.store.get? c with
  | some r =>
      have hpending := (h.built c).1 r hr
      by_cases hstale : s.stale.contains c = true
      · simp [hstale, Std.HashSet.mem_iff_contains]
      · simpa [hstale, Std.HashSet.mem_iff_contains] using hpending
  | none =>
      refine iff_of_false (by simp [hrow]) fun hstale => ?_
      have hcontains := h.sound.stale_recorded c hstale
      rw [(Store.contains_eq_false_iff _ _).mpr hr] at hcontains
      cases hcontains

end Sheet

end LiveSheet
