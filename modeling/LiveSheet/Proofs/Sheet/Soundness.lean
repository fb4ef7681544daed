import LiveSheet.Proofs.Denotation
import LiveSheet.Proofs.Graph.Edges
import LiveSheet.Proofs.Memo
import LiveSheet.Proofs.Store
import LiveSheet.Sheet
import Mathlib.Logic.Basic

/-! # Sound sheets

A value is current if it has been computed and is not marked as stale. In a sound sheet every
current value fits what is written, and rests on current values only: whatever a current
formula refers to is current itself, or has no text at all. While an evaluation is under way,
the cells that it is busy with are excepted. Two things happen to a sheet during an evaluation:
a cell gets its text from the template, or a cell is settled. Neither changes what is written,
in the sense of `text?`, and both keep the sheet sound. -/

namespace LiveSheet.Sheet

/-- The raw texts of the records. -/
def written (s : Sheet) : Writing :=
  s.store.raw?

/-- The raw text of every cell: that of its record, and before it has one that of the
template. -/
def text? (s : Sheet) : Writing := fun c =>
  match s.store.raw? c with
  | some raw => some raw
  | none => s.templateText? c

/-- The cell has a computed value that is not marked as stale. -/
def Current (s : Sheet) (c : Coord) : Prop :=
  ∃ r, s.store.get? c = some r ∧ r.value ≠ .pending ∧ c ∉ s.stale

/-- The edges into a cell come from what its written formula refers to. -/
def EdgesMatch (s : Sheet) (c : Coord) : Prop :=
  ∀ p, p ∈ s.graph.precedents c ↔ s.written.Refers c p

/-- What holds of a sheet while an evaluation is busy with some cells. -/
structure Sound (s : Sheet) (busy : Coord → Prop) : Prop where
  tidy : s.store.Tidy
  inGrid : ∀ c r, s.store.get? c = some r → s.inBounds c = true
  converse : s.graph.Converse
  memo : s.memo.Sound .ofNumbers
  stale_recorded : ∀ c ∈ s.stale, s.store.contains c = true
  edges : ∀ c, s.Current c → s.EdgesMatch c
  bare : ∀ c, s.store.get? c = none → s.EdgesMatch c
  closed : ∀ c, s.Current c → ∀ p, s.text?.Refers c p →
    s.Current p ∨ busy p ∨ s.text? p = none
  fits : ∀ c, s.Current c → s.text?.Fits s.inBounds c (s.store.value c)

/-- If the cell has a record, it has been computed since its text was written; and the edges
into it are those of its text. -/
def Built (s : Sheet) (c : Coord) : Prop :=
  (∀ r, s.store.get? c = some r → r.value ≠ .pending) ∧ s.EdgesMatch c

theorem Sound.built {s : Sheet} {busy : Coord → Prop} (h : s.Sound busy) {c : Coord}
    (hc : s.Current c) : s.Built c := by
  refine ⟨?_, h.edges c hc⟩
  intro r hr
  obtain ⟨r', hr', hpending, -⟩ := hc
  cases hr.symm.trans hr'
  exact hpending

theorem Sound.built_of_get?_eq_none {s : Sheet} {busy : Coord → Prop} (h : s.Sound busy)
    {c : Coord} (hnone : s.store.get? c = none) : s.Built c := by
  refine ⟨fun r hr => ?_, h.bare c hnone⟩
  cases hnone.symm.trans hr

/-- Work may end that has made its cell current, and more work may begin. -/
theorem Sound.mono_busy {s : Sheet} {busy busy' : Coord → Prop} (h : s.Sound busy)
    (hbusy : ∀ p, busy p → s.Current p ∨ busy' p ∨ s.text? p = none) : s.Sound busy' := by
  refine { h with closed := ?_ }
  intro c hc p hp
  rcases h.closed c hc p hp with hp | hp | hp
  · exact .inl hp
  · exact hbusy p hp
  · exact .inr (.inr hp)

/-! ## Reading the state -/

theorem text?_of_raw? {s : Sheet} {c : Coord} {raw : String} (h : s.store.raw? c = some raw) :
    s.text? c = some raw := by
  rw [text?, h]

theorem text?_of_get?_eq_none {s : Sheet} {c : Coord} (h : s.store.get? c = none) :
    s.text? c = s.templateText? c := by
  rw [text?, (Store.raw?_eq_none_iff _ _).mpr h]

theorem contains_of_raw? {s : Sheet} {c : Coord} {raw : String}
    (h : s.store.raw? c = some raw) : s.store.contains c = true := by
  obtain ⟨r, hr, -⟩ := (Store.raw?_eq_some_iff _ _ _).mp h
  exact (Store.contains_iff_get? _ _).mpr ⟨r, hr⟩

/-- Only records refer to anything. -/
theorem contains_of_refers {s : Sheet} {c p : Coord} (h : s.written.Refers c p) :
    s.store.contains c = true := by
  obtain ⟨raw, hraw, -⟩ := h.exists_formula
  exact contains_of_raw? hraw

theorem Current.contains {s : Sheet} {c : Coord} (h : s.Current c) :
    s.store.contains c = true := by
  obtain ⟨r, hr, -⟩ := h
  exact (Store.contains_iff_get? _ _).mpr ⟨r, hr⟩

/-- A record has the text that counts. -/
theorem written_eq_text? {s : Sheet} {c : Coord} (h : s.store.contains c = true) :
    s.written c = s.text? c := by
  obtain ⟨r, hr⟩ := (Store.contains_iff_get? _ _).mp h
  rw [written, text?, (Store.raw?_eq_some_iff _ _ _).mpr ⟨r, hr, rfl⟩]

theorem raw?_of_contains {s : Sheet} {c : Coord} (h : s.store.contains c = true) :
    s.store.raw? c = s.text? c :=
  written_eq_text? h

theorem text?_ne_none_of_contains {s : Sheet} {c : Coord} (h : s.store.contains c = true) :
    s.text? c ≠ none := by
  obtain ⟨r, hr⟩ := (Store.contains_iff_get? _ _).mp h
  rw [← raw?_of_contains h, ne_eq, Store.raw?_eq_none_iff, hr]
  exact Option.some_ne_none r

theorem get?_eq_none_of_text? {s : Sheet} {c : Coord} (h : s.text? c = none) :
    s.store.get? c = none :=
  Store.get?_eq_none_of_not_contains fun hc => text?_ne_none_of_contains hc h

theorem refers_written_iff {s : Sheet} {c p : Coord} (h : s.store.contains c = true) :
    s.written.Refers c p ↔ s.text?.Refers c p := by
  rw [Writing.Refers, Writing.Refers, Writing.references_congr (written_eq_text? h)]

theorem read_of_not_stale {s : Sheet} {c : Coord} {r : Record} (hr : s.store.get? c = some r)
    (hfresh : c ∉ s.stale) : s.read c = ⟨c, some r.raw, r.value⟩ := by
  have hcontains : s.stale.contains c = false := by
    rw [← Bool.not_eq_true, ← Std.HashSet.mem_iff_contains]
    exact hfresh
  unfold read
  rw [hr]
  simp only [hcontains, Bool.false_eq_true, if_false]

theorem needsRefresh_eq_true_iff {s : Sheet} {c : Coord} :
    s.needsRefresh c = true ↔ s.store.contains c = true ∧ ¬s.Current c := by
  unfold needsRefresh
  rw [Store.contains_iff_get?]
  cases hr : s.store.get? c with
  | none => simp
  | some r =>
      simp only [Current, hr, Option.some.injEq, exists_eq_left', exists_eq', true_and,
        Bool.or_eq_true, CellValue.isPending, decide_eq_true_eq, not_and_or, not_not,
        Std.HashSet.mem_iff_contains]

theorem needsRefresh_eq_false_iff {s : Sheet} {c : Coord} :
    s.needsRefresh c = false ↔ s.store.get? c = none ∨ s.Current c := by
  rw [← Bool.not_eq_true, needsRefresh_eq_true_iff, not_and_or, not_not, Bool.not_eq_true,
    Store.contains_eq_false_iff]

theorem inBounds_of_templateText? {s : Sheet} {c : Coord} {raw : String}
    (h : s.templateText? c = some raw) : s.inBounds c = true := by
  unfold templateText? at h
  split at h
  · assumption
  · cases h

/-- What the template has for a cell of the grid is what it has for the cell. -/
theorem template_text?_of_templateText? {s : Sheet} {c : Coord} {raw : String}
    (h : s.templateText? c = some raw) : s.template.text? c = some raw := by
  rwa [templateText?, if_pos (inBounds_of_templateText? h)] at h

theorem inBounds_iff {s : Sheet} {c : Coord} :
    s.inBounds c = true ↔ c.row < s.settings.totalRows ∧ c.col < s.settings.totalCols := by
  rw [inBounds, Coord.inGrid, Bool.and_eq_true, decide_eq_true_eq, decide_eq_true_eq]

theorem inBounds_congr {s s' : Sheet} (h : s'.settings = s.settings) :
    s'.inBounds = s.inBounds := by
  funext c
  rw [inBounds, inBounds, h]

/-! ## Writing from the template -/

/-- What is left alone when cells are written from the template and evaluated. -/
structure Extends (s s' : Sheet) : Prop where
  settings_eq : s'.settings = s.settings
  template_eq : s'.template = s.template
  cascade_eq : s'.cascade = s.cascade
  materialized_eq : s'.materialized = s.materialized
  text?_eq : s'.text? = s.text?
  contains : ∀ c, s.store.contains c = true → s'.store.contains c = true
  stale : ∀ c ∈ s'.stale, c ∈ s.stale

theorem Extends.refl (s : Sheet) : Extends s s :=
  ⟨rfl, rfl, rfl, rfl, rfl, fun _ h => h, fun _ h => h⟩

theorem Extends.trans {s₁ s₂ s₃ : Sheet} (h₁ : Extends s₁ s₂) (h₂ : Extends s₂ s₃) :
    Extends s₁ s₃ where
  settings_eq := h₂.settings_eq.trans h₁.settings_eq
  template_eq := h₂.template_eq.trans h₁.template_eq
  cascade_eq := h₂.cascade_eq.trans h₁.cascade_eq
  materialized_eq := h₂.materialized_eq.trans h₁.materialized_eq
  text?_eq := h₂.text?_eq.trans h₁.text?_eq
  contains c h := h₂.contains c (h₁.contains c h)
  stale c h := h₁.stale c (h₂.stale c h)

/-- What was written stays written. -/
theorem Extends.written {s s' : Sheet} (h : Extends s s') {c : Coord}
    (hc : s.store.contains c = true) : s'.written c = s.written c := by
  rw [written_eq_text? (h.contains c hc), written_eq_text? hc, h.text?_eq]

/-- Synthesis either changes nothing or writes the template text of a cell without a record. -/
theorem synthesize_cases (s : Sheet) (c : Coord) :
    (s.synthesize c = s ∧ (s.store.contains c = true ∨ s.text? c = none)) ∨
      ∃ raw, s.store.get? c = none ∧ s.templateText? c = some raw ∧
        s.synthesize c = { s with store := s.store.setRaw c raw } := by
  unfold synthesize
  split
  · next hcontains => exact .inl ⟨rfl, .inl hcontains⟩
  · next hcontains =>
    have hnone := Store.get?_eq_none_of_not_contains hcontains
    split
    · next raw htext => exact .inr ⟨raw, hnone, htext, rfl⟩
    · next htext => exact .inl ⟨rfl, .inr ((text?_of_get?_eq_none hnone).trans htext)⟩

variable {s : Sheet} {c : Coord} {raw : String}

theorem text?_setRaw_template (hnone : s.store.get? c = none)
    (htext : s.templateText? c = some raw) :
    Sheet.text? { s with store := s.store.setRaw c raw } = s.text? := by
  funext d
  by_cases hd : d = c
  · subst hd
    rw [text?_of_get?_eq_none hnone, htext]
    exact text?_of_raw? (by rw [Store.raw?_setRaw, if_pos rfl])
  · unfold text?
    rw [Store.raw?_setRaw, if_neg hd]
    rfl

/-- Fresh text is not computed yet, and all else is as current as before. -/
theorem current_setRaw_iff (hnot : ¬s.Current c) (d : Coord) :
    Current { s with store := s.store.setRaw c raw } d ↔ s.Current d := by
  unfold Current
  simp only [Store.get?_setRaw]
  by_cases hd : d = c
  · subst hd
    refine iff_of_false ?_ hnot
    rintro ⟨r, hr, hpending, -⟩
    rw [if_pos rfl] at hr
    cases hr
    exact hpending rfl
  · rw [if_neg hd]

theorem not_current_of_get?_eq_none (hnone : s.store.get? c = none) : ¬s.Current c := by
  rintro ⟨r, hr, -⟩
  rw [hnone] at hr
  cases hr

theorem extends_synthesize (s : Sheet) (c : Coord) : Extends s (s.synthesize c) := by
  rcases synthesize_cases s c with ⟨heq, -⟩ | ⟨raw, hnone, htext, heq⟩
  · rw [heq]
    exact Extends.refl s
  · rw [heq]
    exact ⟨rfl, rfl, rfl, rfl, text?_setRaw_template hnone htext,
      fun _ h => Store.contains_setRaw h, fun _ h => h⟩

theorem current_synthesize_iff (s : Sheet) (c d : Coord) :
    (s.synthesize c).Current d ↔ s.Current d := by
  rcases synthesize_cases s c with ⟨heq, -⟩ | ⟨raw, hnone, -, heq⟩
  · rw [heq]
  · rw [heq]
    exact current_setRaw_iff (not_current_of_get?_eq_none hnone) d

/-- Only a cell of the grid is written from the template. -/
theorem contains_or_inBounds_of_synthesize {d : Coord}
    (h : (s.synthesize c).store.contains d = true) :
    s.store.contains d = true ∨ d = c ∧ s.inBounds c = true := by
  rcases synthesize_cases s c with ⟨heq, -⟩ | ⟨raw, -, htext, heq⟩
  · exact .inl (heq ▸ h)
  · rw [heq, Store.contains_setRaw_iff] at h
    exact h.symm.imp_right fun hd => ⟨hd, inBounds_of_templateText? htext⟩

theorem contains_of_synthesize {d : Coord} (h : (s.synthesize c).store.contains d = true) :
    s.store.contains d = true ∨ d = c :=
  (contains_or_inBounds_of_synthesize h).imp_right And.left

/-- A cell with text has a record once the template has been asked for it. -/
theorem contains_synthesize_self (hc : s.text? c ≠ none) :
    (s.synthesize c).store.contains c = true := by
  rcases synthesize_cases s c with ⟨heq, hcontains | hblank⟩ | ⟨raw, -, -, heq⟩
  · rwa [heq]
  · exact (hc hblank).elim
  · rw [heq]
    exact Store.contains_setRaw_self _ c raw

theorem stale_synthesize (s : Sheet) (c : Coord) : (s.synthesize c).stale = s.stale := by
  rcases synthesize_cases s c with ⟨heq, -⟩ | ⟨raw, -, -, heq⟩ <;> rw [heq]

theorem tidy_synthesize (h : s.store.Tidy) (c : Coord) : (s.synthesize c).store.Tidy := by
  rcases synthesize_cases s c with ⟨heq, -⟩ | ⟨raw, -, -, heq⟩ <;> rw [heq]
  · exact h
  · exact h.setRaw c raw

theorem EdgesMatch.synthesize {d : Coord} (h : s.EdgesMatch d) (hd : d ≠ c) :
    (s.synthesize c).EdgesMatch d := by
  rcases synthesize_cases s c with ⟨heq, -⟩ | ⟨raw, -, -, heq⟩
  · rwa [heq]
  · rw [heq]
    intro p
    have hwritten : Sheet.written { s with store := s.store.setRaw c raw } d =
        s.written d := by
      unfold written
      rw [Store.raw?_setRaw, if_neg hd]
    rw [Writing.Refers, Writing.references_congr hwritten]
    exact h p

theorem get?_synthesize {d : Coord} (hd : d ≠ c) :
    (s.synthesize c).store.get? d = s.store.get? d := by
  rcases synthesize_cases s c with ⟨heq, -⟩ | ⟨raw, -, -, heq⟩
  · rw [heq]
  · rw [heq, Store.get?_setRaw, if_neg hd]

theorem Built.synthesize {d : Coord} (h : s.Built d) (hd : d ≠ c) :
    (s.synthesize c).Built d :=
  ⟨fun r hr => h.1 r (get?_synthesize hd ▸ hr), h.2.synthesize hd⟩

theorem Sound.synthesize {busy : Coord → Prop} (h : s.Sound busy) (c : Coord) :
    (s.synthesize c).Sound busy := by
  have hcurrent := current_synthesize_iff s c
  have hext := extends_synthesize s c
  rcases synthesize_cases s c with ⟨heq, -⟩ | ⟨raw, hnone, htext, heq⟩
  · rw [heq]
    exact h
  · -- The cell that is written had no record, so nothing is claimed of it before or after.
    have hold : ∀ d, s.Current d → d ≠ c := fun d hd heq =>
      not_current_of_get?_eq_none hnone (heq ▸ hd)
    have hnew : ∀ d, (s.synthesize c).store.get? d = none → d ≠ c := by
      rintro d hd rfl
      rw [heq, Store.get?_setRaw, if_pos rfl] at hd
      cases hd
    refine ⟨tidy_synthesize h.tidy c, ?_, ?_, ?_, ?_, ?_, ?_, ?_, ?_⟩
    · intro d r hr
      rw [inBounds_congr hext.settings_eq]
      by_cases hd : d = c
      · exact hd ▸ inBounds_of_templateText? htext
      · exact h.inGrid d r (get?_synthesize hd ▸ hr)
    · rw [heq]
      exact h.converse
    · rw [heq]
      exact h.memo
    · intro d hd
      rw [stale_synthesize] at hd
      exact hext.contains d (h.stale_recorded d hd)
    · intro d hd
      rw [hcurrent] at hd
      exact (h.edges d hd).synthesize (hold d hd)
    · intro d hd
      exact (h.bare d (get?_synthesize (hnew d hd) ▸ hd)).synthesize (hnew d hd)
    · intro d hd p hp
      rw [hcurrent] at hd ⊢
      rw [hext.text?_eq] at hp ⊢
      exact h.closed d hd p hp
    · intro d hd
      rw [hcurrent] at hd
      have hvalue : (s.synthesize c).store.value d = s.store.value d := by
        unfold Store.value
        rw [get?_synthesize (hold d hd)]
      rw [hext.text?_eq, hvalue, inBounds_congr hext.settings_eq]
      exact h.fits d hd

end LiveSheet.Sheet
