import LiveSheet.Proofs.Session.Draining

/-! # Whole passes

A session does nothing to its population pass but start it and advance it. So what holds of every
pass holds of the pass of a session, and a whole pass writes as many batches as the rows of the grid
are cut into. -/

namespace LiveSheet.Session

variable {s : Session}

/-- Writing the rows of a batch makes no difference to the batches that are left. -/
theorem finishPass_eq (batches : Nat) (s : Session) :
    (s.finishPass batches).1 = batches + s.population.handOut.1.length ∧
      (s.finishPass batches).2.population = s.population.handOut.2 := by
  fun_induction finishPass batches s with
  | case1 batches s hnone =>
      rw [Population.handOut_of_none hnone]
      exact ⟨rfl, rfl⟩
  | case2 batches s batch hbatch _ ih =>
      have hnext : (s.writeBatch batch).population = s.population.advance batch.stop := rfl
      rw [hnext] at ih
      rw [Population.handOut_of_some hbatch, List.length_cons]
      exact ⟨ih.1.trans (by omega), ih.2⟩

/-- An operation does nothing to the pass but start it and advance it. -/
theorem exists_requests_perform (s : Session) (operation : Operation) :
    ∃ requests, (s.perform operation).population = s.population.performAll requests := by
  cases operation with
  | startPopulation => exact ⟨[.start], rfl⟩
  | tick =>
      unfold Session.perform Session.tick
      cases s.population.nextBatch? with
      | none => exact ⟨[], rfl⟩
      | some batch => exact ⟨[.advance batch.stop], rfl⟩
  | populateAll =>
      obtain ⟨requests, hrequests⟩ := s.population.start.exists_requests_handOut
      exact ⟨.start :: requests, (finishPass_eq 0 s.startPopulation).2.trans hrequests⟩
  | _ => exact ⟨[], s.population_perform id⟩

/-- The pass of a session is over the rows of its grid, in batches of the size that its settings
say. -/
theorem Reachable.exists_requests (h : s.Reachable) : ∃ requests, s.population =
    (Population.idle s.sheet.settings.totalRows s.sheet.settings.batchSize).performAll
      requests := by
  induction h with
  | start h =>
      obtain ⟨-, hsheet, hpopulation⟩ := start_eq_ok h
      rw [hsheet, hpopulation]
      exact ⟨[], rfl⟩
  | perform h operation ih =>
      obtain ⟨requests, hrequests⟩ := ih
      obtain ⟨more, hmore⟩ := exists_requests_perform _ operation
      refine ⟨requests ++ more, ?_⟩
      rw [(h.coherent.revises_perform h.furnished operation).settings_eq, hmore]
      exact (congrArg (Population.performAll · more) hrequests).trans List.foldl_append.symm

/-- The rows of a grid are handed out in batches, whatever was asked of the pass before, and whether
or not it was done. A pass under way has rows left. Once it is not under way it can be started, and
then all rows are handed out, cut into batches of one size of which only the last may be smaller,
until the pass is done. Words of 32 bits are enough for that, and a size of zero is a size of one. A
session that runs a whole pass counts as many batches as there are rows, divided by the size of the
batches and rounded up. -/
theorem passes_tile_rows :
    (∀ (totalRows batchSize : UInt32) (requests : List Population.Request),
      let p := (Population.idle totalRows.toNat batchSize.toNat).performAll requests
      (∀ next, p.state = .populating next → next < totalRows.toNat) ∧
        (p.isLoading = false → p.start.handOut.2.state = .done ∧
          Batch.Tiles (max batchSize 1).toNat 0 totalRows.toNat p.start.handOut.1 ∧
          ∀ batch ∈ p.start.handOut.1, batch.FitsWords (max batchSize 1) totalRows)) ∧
    ∀ s : Session, s.Reachable → s.population.isLoading = false →
      s.populateAll.1 = s.sheet.settings.totalRows ⌈/⌉ s.sheet.settings.batchSize := by
  refine ⟨fun totalRows batchSize requests => ?_, fun s h hidle => ?_⟩
  · intro p
    obtain ⟨hgrid, hrows, hsize⟩ :=
      (Population.inGrid_idle totalRows.toNat batchSize.toNat).performAll requests
    replace hrows : p.totalRows = totalRows.toNat := hrows
    replace hsize : p.batchSize = (max batchSize 1).toNat :=
      hsize.trans (UInt32.toNat_max batchSize 1).symm
    refine ⟨hrows ▸ hgrid, fun hidle => ?_⟩
    obtain ⟨hdone, htiles⟩ := Population.tiles_start hidle
    rw [hrows, hsize] at htiles
    exact ⟨hdone, htiles, fun batch hbatch => htiles.fitsWords hbatch⟩
  · obtain ⟨requests, hrequests⟩ := h.exists_requests
    obtain ⟨-, hrows, hsize⟩ := (Population.inGrid_idle s.sheet.settings.totalRows
      s.sheet.settings.batchSize).performAll requests
    rw [← hrequests] at hrows hsize
    obtain ⟨-, -, -, hpos, -⟩ := Settings.validate_eq_ok_iff.mp h.validate_eq_ok
    have hmax : max s.sheet.settings.batchSize 1 = s.sheet.settings.batchSize :=
      Nat.max_eq_left hpos
    obtain ⟨-, htiles⟩ := Population.tiles_start hidle
    rw [hrows, hsize] at htiles
    calc s.populateAll.1 = 0 + s.population.start.handOut.1.length :=
          (finishPass_eq 0 s.startPopulation).1
      _ = s.sheet.settings.totalRows ⌈/⌉ (max s.sheet.settings.batchSize 1) := by
          rw [Nat.zero_add, htiles.length_eq]
          rfl
      _ = s.sheet.settings.totalRows ⌈/⌉ s.sheet.settings.batchSize := by rw [hmax]

/-- Ten rows in batches of four, after a pass that was ended too early, and a grid that is smaller
than its batches. -/
theorem passes_tile_ten_rows :
    let p := (Population.idle 10 4).performAll [.start, .advance 12]
    p.isLoading = false ∧ p.start.handOut.1.length = 3 ∧ small.population.isLoading = false ∧
      small.populateAll.1 = 1 := by
  intro p
  obtain ⟨hpasses, hcount⟩ := passes_tile_rows
  obtain ⟨-, hstart⟩ := hpasses 10 4 [.start, .advance 12]
  obtain ⟨-, htiles, -⟩ := hstart rfl
  exact ⟨rfl, htiles.length_eq.trans (by decide), rfl,
    (hcount small reachable_small rfl).trans (by decide)⟩

end LiveSheet.Session
