import LiveSheet.Proofs.Session.Runs

/-! # Propagation in reachable sessions

The graph has the edges of the written formulas and no others, and no stale cell is forgotten:
whatever order the operations came in, the cascade still has it ahead. -/

namespace LiveSheet.Session

variable {s : Session}

/-- Only records are stale, with everything that refers to them, and the cascade will come to
each of them. Once it has nothing left to do no record reads as pending. -/
theorem no_lost_update (h : s.Reachable) :
    (∀ p ∈ s.sheet.stale, s.sheet.store.contains p = true ∧
      ∀ d, s.sheet.written.Refers d p → d ∈ s.sheet.stale) ∧
      (∀ c ∈ s.sheet.stale, s.sheet.cascade.Ahead s.sheet.graph.Edge c) ∧
      (s.sheet.cascadePending = false →
        (∀ c, c ∉ s.sheet.stale) ∧
          ∀ c, s.sheet.store.contains c = true → (s.sheet.read c).value ≠ .pending) := by
  have hcoherent := h.coherent.sheet
  refine ⟨fun p hp => ⟨hcoherent.sound.stale_recorded p hp, fun d => ?_⟩, hcoherent.ahead, ?_⟩
  · exact hcoherent.stale_of_refers hp
  · intro hpending
    have hfresh : ∀ c, c ∉ s.sheet.stale := fun c => hcoherent.not_stale_of_pending hpending
    refine ⟨hfresh, fun c hc => ?_⟩
    obtain ⟨r, hr⟩ := (Store.contains_iff_get? _ _).mp hc
    rw [Sheet.read_of_not_stale hr (hfresh c)]
    exact (hcoherent.built c).1 r hr

/-- A number to which nothing refers. -/
theorem read_ne_pending_of_number :
    let s := small.perform (.beginEdit ⟨0, 0⟩ "1")
    s.Reachable ∧ s.sheet.cascadePending = false ∧ s.sheet.store.contains ⟨0, 0⟩ = true ∧
      (s.sheet.read ⟨0, 0⟩).value ≠ .pending := by
  intro s
  have hreach : s.Reachable := reachable_small.perform _
  have hbegins : small.sheet.Begins ⟨0, 0⟩ "1" s.sheet := reachable_small.begins _ _ rfl
  clear_value s
  have hedge : ∀ d, ¬s.sheet.graph.Edge ⟨0, 0⟩ d := by
    intro d hd
    have hrefers := (hreach.coherent.sheet.edge_iff ⟨0, 0⟩ d).mp hd
    rw [Sheet.refers_written_iff (Sheet.contains_of_refers hrefers)] at hrefers
    obtain ⟨raw, hraw, hformula, -⟩ := hrefers.exists_formula
    rw [hbegins.text?_eq, text?_small] at hraw
    split at hraw
    · cases hraw
      cases hformula
    · cases hraw
  have hqueue : s.sheet.cascade.queue.toList = [] := by
    rw [hbegins.queue_eq, List.eq_nil_iff_forall_not_mem.mpr hedge]
    rfl
  have hpending : s.sheet.cascadePending = false := by
    rw [Sheet.cascadePending, (Queue.isEmpty_iff _).mpr hqueue]
    rfl
  have hcontains := hbegins.current.contains
  exact ⟨hreach, hpending, hcontains, ((no_lost_update hreach).2.2 hpending).2 _ hcontains⟩

/-- There is an edge from `p` to `d` exactly if `d` has a record with a formula that refers to
`p`. -/
theorem edges_exact (h : s.Reachable) (p d : Coord) :
    (d ∈ s.sheet.graph.dependents p ↔ p ∈ s.sheet.graph.precedents d) ∧
      (d ∈ s.sheet.graph.dependents p ↔
        ∃ r, s.sheet.store.get? d = some r ∧ r.isFormula = true ∧
          p ∈ (Formula.ofRaw r.raw).references) := by
  have hcoherent := h.coherent.sheet
  refine ⟨hcoherent.sound.converse p d, (hcoherent.edge_iff p d).trans ?_⟩
  constructor
  · intro hrefers
    obtain ⟨raw, hraw, hformula, hp⟩ := hrefers.exists_formula
    obtain ⟨r, hr, rfl⟩ := (Store.raw?_eq_some_iff _ _ _).mp hraw
    exact ⟨r, hr, hformula, hp⟩
  · rintro ⟨r, hr, hformula, hp⟩
    have hraw : s.sheet.written d = some r.raw := (Store.raw?_eq_some_iff _ _ _).mpr ⟨r, hr, rfl⟩
    exact (Writing.refers_iff hraw hformula).mpr hp

/-- A formula that refers to one cell. -/
theorem dependents_of_formula :
    let s := small.perform (.beginEdit ⟨0, 1⟩ "=A1+1")
    s.Reachable ∧ ⟨0, 1⟩ ∈ s.sheet.graph.dependents ⟨0, 0⟩ := by
  intro s
  have hreach : s.Reachable := reachable_small.perform _
  have hbegins : small.sheet.Begins ⟨0, 1⟩ "=A1+1" s.sheet := reachable_small.begins _ _ rfl
  obtain ⟨r, hr, hraw, -⟩ := hbegins.exists_record
  refine ⟨hreach, (edges_exact hreach ⟨0, 0⟩ ⟨0, 1⟩).2.mpr ⟨r, hr, ?_, ?_⟩⟩
  · rw [Record.isFormula, hraw]
    rfl
  · rw [hraw]
    decide +kernel

end LiveSheet.Session
