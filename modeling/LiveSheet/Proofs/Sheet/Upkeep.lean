import LiveSheet.Proofs.Sheet.Edits
import LiveSheet.Proofs.Sheet.Extent

/-! # Upkeep

A sheet that advances its cascade or computes everything anew does nothing but chores: it
refreshes a cell, changes the queue of the cascade, or marks every record as stale. A chore
writes no text and gives no cell a record, because whatever the records refer to has one
already. So upkeep never shows in what is written. -/

namespace LiveSheet.Sheet

variable {s s' s₁ s₂ s₃ : Sheet} {c : Coord}

/-- The template cells of a row have been written, unless the template says that there are
none. -/
def RowWritten (s : Sheet) (row : Nat) : Prop :=
  s.template.hasContent row s.settings.totalCols = false ∨
    ∀ c : Coord, c.row = row → s.templateText? c ≠ none → s.store.contains c = true

theorem templateText?_congr (hsettings : s'.settings = s.settings)
    (htemplate : s'.template = s.template) : s'.templateText? = s.templateText? := by
  funext c
  rw [templateText?, templateText?, inBounds_congr hsettings, htemplate]

theorem RowWritten.mono {row : Nat} (h : s.RowWritten row) (hsettings : s'.settings = s.settings)
    (htemplate : s'.template = s.template)
    (hcontains : ∀ c, s.store.contains c = true → s'.store.contains c = true) :
    s'.RowWritten row := by
  unfold RowWritten at h ⊢
  rw [templateText?_congr hsettings htemplate, hsettings, htemplate]
  exact h.imp_right fun h c hrow htext => hcontains c (h c hrow htext)

/-- What holds of a sheet between two chores. Beside the values and the edges, which are in
order, nothing that the sheet has to do with is left unwritten. -/
structure Furnished (s : Sheet) : Prop where
  sound : s.Sound idle
  built : ∀ c, s.Built c
  closed : s.ClosedRecords
  queued : ∀ c ∈ s.cascade.queue.toList, s.store.contains c = true
  rows : ∀ row, s.isMaterialized row = true → s.RowWritten row

/-- The same cells are written in both sheets, and they have the same texts. -/
structure SameCells (s s' : Sheet) : Prop where
  settings_eq : s'.settings = s.settings
  template_eq : s'.template = s.template
  materialized_eq : s'.materialized = s.materialized
  text?_eq : s'.text? = s.text?
  contains_iff : ∀ c, s'.store.contains c = true ↔ s.store.contains c = true

namespace SameCells

theorem refl (s : Sheet) : SameCells s s :=
  ⟨rfl, rfl, rfl, rfl, fun _ => .rfl⟩

theorem symm (h : SameCells s s') : SameCells s' s :=
  ⟨h.settings_eq.symm, h.template_eq.symm, h.materialized_eq.symm, h.text?_eq.symm,
    fun c => (h.contains_iff c).symm⟩

theorem trans (h₁ : SameCells s₁ s₂) (h₂ : SameCells s₂ s₃) : SameCells s₁ s₃ where
  settings_eq := h₂.settings_eq.trans h₁.settings_eq
  template_eq := h₂.template_eq.trans h₁.template_eq
  materialized_eq := h₂.materialized_eq.trans h₁.materialized_eq
  text?_eq := h₂.text?_eq.trans h₁.text?_eq
  contains_iff c := (h₂.contains_iff c).trans (h₁.contains_iff c)

end SameCells

/-- An evaluation furnishes a sheet whose queue and whose marked rows are in order. -/
theorem Evaluates.furnished (h : Evaluates s c s') (hbuilt : ∀ d, s'.Built d)
    (hclosed : s'.ClosedRecords)
    (hqueued : ∀ d ∈ s.cascade.queue.toList, s.store.contains d = true)
    (hrows : ∀ row, s.isMaterialized row = true → s.RowWritten row) : s'.Furnished where
  sound := h.sound
  built := hbuilt
  closed := hclosed
  queued d hd := by
    rw [h.toExtends.cascade_eq] at hd
    exact h.toExtends.contains d (hqueued d hd)
  rows row hrow := by
    rw [isMaterialized, h.toExtends.materialized_eq] at hrow
    exact (hrows row hrow).mono h.toExtends.settings_eq h.toExtends.template_eq
      h.toExtends.contains

namespace Furnished

theorem known (h : s.Furnished) (d : Coord) (hd : s.store.contains d = true) :
    d ∈ s.stale ∨ s.Current d :=
  known_of_built h.built hd

theorem edge_iff (h : s.Furnished) (p d : Coord) :
    s.graph.Edge p d ↔ s.written.Refers d p :=
  Sheet.edge_iff h.sound.converse (h.built d).2

/-- A sheet in which every record is current has computed whatever its records refer to. -/
theorem of_current (h : s.Coherent) (hcurrent : ∀ c, s.store.contains c = true → s.Current c)
    (hqueue : s.cascade.queue.toList = [])
    (hrows : ∀ row, s.isMaterialized row = true → s.RowWritten row) : s.Furnished where
  sound := h.sound
  built := h.built
  closed c p hcp hp := by
    have hc := contains_of_refers hcp
    rcases h.sound.closed c (hcurrent c hc) p ((refers_written_iff hc).mp hcp) with hp' | hp' | hp'
    · exact hp'.contains
    · exact hp'.elim
    · exact (hp hp').elim
  queued c hc := by
    rw [hqueue] at hc
    cases hc
  rows := hrows

/-! ## Evaluating cells -/

theorem evaluates (h : s.Furnished) (c : Coord) : Evaluates s c (s.evaluate c) :=
  h.sound.evaluate fun d hd => (h.known d hd).imp_right .inl

theorem evaluate (h : s.Furnished) (c : Coord) : (s.evaluate c).Furnished := by
  have hev := h.evaluates c
  refine hev.furnished (fun d => hev.built d (.inl (h.built d))) ?_ h.queued h.rows
  exact hev.closedRecords h.sound.stale_recorded fun d p _ => h.closed d p

/-- Evaluating a record writes no other cell. -/
theorem sameCells_evaluate (h : s.Furnished) (hc : s.store.contains c = true) :
    SameCells s (s.evaluate c) := by
  have hext := (h.evaluates c).toExtends
  refine ⟨hext.settings_eq, hext.template_eq, hext.materialized_eq, hext.text?_eq,
    fun d => ⟨fun hd => ?_, hext.contains d⟩⟩
  have htext : s.text? d ≠ none := hext.text?_eq ▸ text?_ne_none_of_contains hd
  rcases contains_of_evaluate hd with hd | hpath
  · exact hd
  · exact h.closed.contains_of_path hc hpath htext

end Furnished

/-! ## Chores -/

/-- One chore. The queue may lose cells and gain dependents. -/
inductive Chore (s : Sheet) : Sheet → Prop
  | refresh (c : Coord) : Chore s (s.refresh c)
  | requeue {k : Cascade} (hqueue : ∀ c ∈ k.queue.toList,
      c ∈ s.cascade.queue.toList ∨ ∃ p, s.graph.Edge p c) : Chore s { s with cascade := k }
  | suspect : Chore s s.markAll

theorem Furnished.chore (h : s.Furnished) (hchore : Chore s s') :
    s'.Furnished ∧ SameCells s s' := by
  cases hchore with
  | refresh c =>
      unfold Sheet.refresh
      split
      · next hstale =>
        have hc := h.sound.stale_recorded c (Std.HashSet.mem_iff_contains.mpr hstale)
        exact ⟨h.evaluate c, h.sameCells_evaluate hc⟩
      · exact ⟨h, .refl s⟩
  | requeue hqueue =>
      refine ⟨⟨{ h.sound with }, h.built, h.closed, fun c hc => ?_, h.rows⟩,
        ⟨rfl, rfl, rfl, rfl, fun _ => .rfl⟩⟩
      rcases hqueue c hc with hc | ⟨p, hp⟩
      · exact h.queued c hc
      · exact contains_of_refers ((h.edge_iff p c).mp hp)
  | suspect =>
      exact ⟨⟨h.sound.markAll, h.built, h.closed, h.queued, h.rows⟩,
        ⟨rfl, rfl, rfl, rfl, fun _ => .rfl⟩⟩

/-- Chores, one after the other. -/
def Upkeep : Sheet → Sheet → Prop :=
  Relation.ReflTransGen Chore

theorem Furnished.upkeep (h : s.Furnished) (hupkeep : Upkeep s s') :
    s'.Furnished ∧ SameCells s s' := by
  induction hupkeep with
  | refl => exact ⟨h, .refl s⟩
  | tail _ hchore ih =>
      obtain ⟨hfurnished, hsame⟩ := ih
      obtain ⟨hfurnished', hsame'⟩ := hfurnished.chore hchore
      exact ⟨hfurnished', hsame.trans hsame'⟩

/-! ## What is upkeep -/

theorem upkeep_foldl_refresh (cells : List Coord) (s : Sheet) :
    Upkeep s (cells.foldl Sheet.refresh s) := by
  induction cells generalizing s with
  | nil => exact .refl
  | cons c rest ih => exact .head (.refresh c) (ih (s.refresh c))

theorem upkeep_recalculateAll (s : Sheet) : Upkeep s s.recalculateAll.2 :=
  .head .suspect (upkeep_foldl_refresh (s.store.formulaCells ++ s.store.coords) s.markAll)

theorem chore_skip {queue : Queue Coord} (hpop : s.cascade.queue.pop? = some (c, queue))
    (visited : Std.HashSet Coord) : Chore s { s with cascade := ⟨queue, visited⟩ } := by
  refine .requeue fun d hd => .inl ?_
  rw [Queue.toList_of_pop? hpop]
  exact List.mem_cons_of_mem c hd

theorem chore_enqueueDependents (s : Sheet) (c : Coord) : Chore s (s.enqueueDependents c) := by
  refine .requeue fun d hd => ?_
  rw [Queue.toList_append, List.mem_append] at hd
  exact hd.imp_right fun hd => ⟨c, hd⟩

theorem upkeep_visitDependent {queue : Queue Coord}
    (hpop : s.cascade.queue.pop? = some (c, queue)) :
    Upkeep s ({ s with cascade.queue := queue }.visitDependent c) := by
  rw [Coherent.visitDependent_eq]
  exact .head (chore_skip hpop (s.cascade.visited.insert c))
    (.head (.refresh c) (.single (chore_enqueueDependents _ c)))

theorem upkeep_visitDependents (limit : Nat) (s : Sheet) :
    Upkeep s (visitDependents limit s).2 := by
  fun_induction visitDependents limit s with
  | case1 => exact .refl
  | case2 => exact .refl
  | case3 s left c queue hpop _ s' _ ih => exact .head (chore_skip hpop s.cascade.visited) ih
  | case4 s left c queue hpop _ s' _ ih => exact (upkeep_visitDependent hpop).trans ih

theorem upkeep_cascadeStep (s : Sheet) (limit : Nat) : Upkeep s (s.cascadeStep limit).2 := by
  refine (upkeep_visitDependents limit s).trans ?_
  change Upkeep (visitDependents limit s).2 (visitDependents limit s).2.closeCascade
  unfold Sheet.closeCascade
  split
  · exact .single (.requeue fun d hd => .inl hd)
  · exact .refl

end LiveSheet.Sheet
