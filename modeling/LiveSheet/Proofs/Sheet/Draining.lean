import LiveSheet.Proofs.Sheet.Revision

/-! # Draining a cascade

A cascade visits no cell twice, and all that it visits are cells of the grid. A step that does
not empty the queue has therefore used up its limit on cells that had not been visited, of which
fewer are left each time. -/

namespace LiveSheet.Sheet

variable {s s' : Sheet} {c : Coord} {raw : String}

/-- The cells of the grid that the cascade has not visited. -/
def unvisited (s : Sheet) : Finset Coord :=
  s.settings.cells.filter (· ∉ s.cascade.visited)

theorem card_unvisited_le (s : Sheet) :
    s.unvisited.card ≤ s.settings.totalRows * s.settings.totalCols :=
  (Finset.card_filter_le _ _).trans s.settings.card_cells_le

theorem cascadePending_eq_false_iff :
    s.cascadePending = false ↔ s.cascade.queue.toList = [] := by
  rw [cascadePending, Bool.not_eq_false', Queue.isEmpty_iff]

namespace Furnished

/-- A visit uses up its cell. -/
theorem card_unvisited_visitDependent_lt (h : s.Furnished) {queue : Queue Coord}
    (hpop : s.cascade.queue.pop? = some (c, queue)) (hc : c ∉ s.cascade.visited) :
    ({ s with cascade.queue := queue }.visitDependent c).unvisited.card <
      s.unvisited.card := by
  have hqueued : c ∈ s.cascade.queue.toList := by
    rw [Queue.toList_of_pop? hpop]
    exact List.mem_cons_self
  obtain ⟨r, hr⟩ := (Store.contains_iff_get? _ _).mp (h.queued c hqueued)
  have hgrid := (s.settings.mem_cells_iff c).mpr (h.sound.inGrid c r hr)
  have hext := (Sound.refresh (s := { s with cascade := ⟨queue, s.cascade.visited.insert c⟩ })
    { h.sound with } h.known c).toExtends
  have hsettings : _ = s.settings := hext.settings_eq
  have hcascade := hext.cascade_eq
  rw [Coherent.visitDependent_eq]
  generalize Sheet.refresh { s with cascade := ⟨queue, s.cascade.visited.insert c⟩ } c = s₁
    at *
  have hvisited : (s₁.enqueueDependents c).cascade.visited = s.cascade.visited.insert c :=
    congrArg Cascade.visited hcascade
  have hcells : (s₁.enqueueDependents c).settings.cells = s.settings.cells :=
    congrArg Settings.cells hsettings
  refine Finset.card_lt_card (Finset.ssubset_iff_of_subset ?_ |>.mpr ⟨c, ?_, ?_⟩)
  · intro d hd
    rw [unvisited, Finset.mem_filter, hvisited, hcells, Std.HashSet.mem_insert, not_or] at hd
    exact Finset.mem_filter.mpr ⟨hd.1, hd.2.2⟩
  · exact Finset.mem_filter.mpr ⟨hgrid, hc⟩
  · rw [unvisited, Finset.mem_filter, hvisited]
    exact fun hd => hd.2 Std.HashSet.mem_insert_self

/-- Visiting dependents empties the queue or uses up the limit. -/
theorem card_unvisited_visitDependents_le (h : s.Furnished) (limit : Nat) :
    (visitDependents limit s).2.cascade.queue.toList = [] ∨
      (visitDependents limit s).2.unvisited.card + limit ≤ s.unvisited.card := by
  fun_induction visitDependents limit s with
  | case1 s => exact .inr (Nat.le_refl _)
  | case2 s left hpop => exact .inl ((Queue.pop?_eq_none_iff _).mp hpop)
  | case3 s left c queue hpop _ s' _ ih =>
      exact ih (h.chore (chore_skip hpop s.cascade.visited)).1
  | case4 s left c queue hpop _ s' hvisited ih =>
      have hlt : (s'.visitDependent c).unvisited.card < s.unvisited.card :=
        h.card_unvisited_visitDependent_lt hpop (Std.HashSet.mem_iff_contains.not.mpr hvisited)
      refine (ih (h.upkeep (upkeep_visitDependent hpop)).1).imp_right fun hle => ?_
      omega

theorem card_unvisited_cascadeStep_le (h : s.Furnished) (limit : Nat) :
    (s.cascadeStep limit).2.cascadePending = false ∨
      (s.cascadeStep limit).2.unvisited.card + limit ≤ s.unvisited.card := by
  have hvisit := h.card_unvisited_visitDependents_le limit
  change (visitDependents limit s).2.closeCascade.cascadePending = false ∨
    (visitDependents limit s).2.closeCascade.unvisited.card + limit ≤ _
  generalize (visitDependents limit s).2 = s₁ at *
  rw [cascadePending_eq_false_iff]
  unfold closeCascade
  split
  · next hempty => exact .inl ((Queue.isEmpty_iff _).mp hempty)
  · exact hvisit

/-- A step whose limit no cascade reaches leaves nothing to do. -/
theorem cascadePending_cascadeStep (h : s.Furnished) {limit : Nat}
    (hlimit : s.settings.totalRows * s.settings.totalCols < limit) :
    (s.cascadeStep limit).2.cascadePending = false := by
  refine (h.card_unvisited_cascadeStep_le limit).resolve_right fun hle => ?_
  have hcard := s.card_unvisited_le
  omega

end Furnished

/-- An edit propagates to the end. -/
theorem Coherent.cascadePending_edit (h : s.Coherent) (hs : s.Furnished)
    (hsize : s.settings.totalRows * s.settings.totalCols < noLimit) {report : Report}
    (hs' : s.edit c raw = .ok (report, s')) : s'.cascadePending = false := by
  obtain ⟨s₁, hbegin, rfl⟩ := edit_eq_ok hs'
  have hrevises := h.revises_beginEdit hs hbegin
  exact hrevises.furnished.cascadePending_cascadeStep (hrevises.settings_eq ▸ hsize)

end LiveSheet.Sheet
