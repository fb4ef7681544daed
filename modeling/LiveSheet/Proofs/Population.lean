import LiveSheet.Coord
import LiveSheet.Population
import Mathlib.Algebra.Order.Floor.Div
import Mathlib.Data.List.Chain

/-! # Batches of rows

A pass that is under way has always rows left, however it was started and advanced. Its batches cut
the rows of the grid into pieces of one size, of which only the last may be smaller, so their number
is the number of rows divided by that size and rounded up. No row of the grid is too large for the
words of 32 bits in which a batch is computed. -/

namespace LiveSheet

namespace Population

variable {p : Population} {batch : Batch}

/-! ## Steps of a pass -/

/-- Only a pass under way has a next batch. -/
theorem nextBatch?_eq_some (h : p.nextBatch? = some batch) :
    ∃ next, p.state = .populating next ∧
      batch = ⟨next, min (next + p.batchSize) p.totalRows⟩ := by
  unfold nextBatch? at h
  split at h
  · next next hstate =>
    cases h
    exact ⟨next, hstate, rfl⟩
  · cases h

theorem stop_le_totalRows (h : p.nextBatch? = some batch) : batch.stop ≤ p.totalRows := by
  obtain ⟨next, -, rfl⟩ := nextBatch?_eq_some h
  exact Nat.min_le_right _ _

theorem totalRows_start (p : Population) : p.start.totalRows = p.totalRows := by
  unfold start
  split <;> rfl

theorem totalRows_advance (p : Population) (next : Nat) :
    (p.advance next).totalRows = p.totalRows := by
  unfold advance
  split <;> rfl

theorem batchSize_start (p : Population) : p.start.batchSize = p.batchSize := by
  unfold start
  split <;> rfl

theorem batchSize_advance (p : Population) (next : Nat) :
    (p.advance next).batchSize = p.batchSize := by
  unfold advance
  split <;> rfl

theorem state_eq_done (h : p.nextBatch? = none) (hstarted : p.state ≠ .idle) :
    p.state = .done := by
  unfold nextBatch? at h
  split at h
  · cases h
  · next hstate =>
    cases hp : p.state with
    | idle => exact (hstarted hp).elim
    | populating next => exact (hstate next hp).elim
    | done => rfl

theorem state_start_ne_idle (p : Population) : p.start.state ≠ .idle := by
  unfold start
  split
  · next hloading =>
    intro hidle
    simp [isLoading, hidle] at hloading
  · simp only
    split <;> exact PassState.noConfusion

theorem state_advance_ne_idle (hbatch : p.nextBatch? = some batch) :
    (p.advance batch.stop).state ≠ .idle := by
  obtain ⟨next, hstate, rfl⟩ := nextBatch?_eq_some hbatch
  simp only [advance, hstate]
  split <;> exact PassState.noConfusion

/-! ## Passes that are started and advanced at will -/

/-- What can be done to a pass from outside. -/
inductive Request where
  | start
  | advance (next : Nat)

def perform (p : Population) : Request → Population
  | .start => p.start
  | .advance next => p.advance next

def performAll (p : Population) (requests : List Request) : Population :=
  requests.foldl perform p

/-- A pass that is under way has rows left. -/
def InGrid (p : Population) : Prop :=
  ∀ next, p.state = .populating next → next < p.totalRows

theorem inGrid_idle (totalRows batchSize : Nat) : (idle totalRows batchSize).InGrid := by
  rintro next ⟨⟩

theorem InGrid.start (h : p.InGrid) : p.start.InGrid := by
  unfold Population.start
  split
  · exact h
  · intro next hstate
    dsimp only at hstate ⊢
    split at hstate
    · cases hstate
    · next hrows =>
      cases hstate
      exact Nat.pos_of_ne_zero hrows

theorem InGrid.advance (h : p.InGrid) (next : Nat) : (p.advance next).InGrid := by
  unfold Population.advance
  split
  · intro next' hstate
    dsimp only at hstate ⊢
    split at hstate
    · cases hstate
    · next hrows =>
      cases hstate
      exact Nat.not_le.mp hrows
  · exact h

/-- No request changes the size of the grid or of the batches, or leads out of the grid. -/
theorem InGrid.performAll (h : p.InGrid) (requests : List Request) :
    (p.performAll requests).InGrid ∧ (p.performAll requests).totalRows = p.totalRows ∧
      (p.performAll requests).batchSize = p.batchSize := by
  induction requests generalizing p with
  | nil => exact ⟨h, rfl, rfl⟩
  | cons request rest ih =>
      cases request with
      | start =>
          obtain ⟨hgrid, hrows, hsize⟩ := ih h.start
          exact ⟨hgrid, hrows.trans p.totalRows_start, hsize.trans p.batchSize_start⟩
      | advance next =>
          obtain ⟨hgrid, hrows, hsize⟩ := ih (h.advance next)
          exact ⟨hgrid, hrows.trans (p.totalRows_advance next),
            hsize.trans (p.batchSize_advance next)⟩

end Population

/-! ## Tilings -/

namespace Batch

/-- The rows of a batch. -/
def rows (batch : Batch) : List Nat :=
  List.range' batch.start (batch.stop - batch.start)

/-- The batches cut the rows from `first` to before `total` into pieces of the given size. -/
structure Tiles (size first total : Nat) (batches : List Batch) : Prop where
  length_eq : batches.length = (total - first) ⌈/⌉ size
  /-- The rows of the batches, one batch after the other, are all the rows. -/
  rows_eq : batches.flatMap rows = List.range' first (total - first)
  starts : ∀ batch ∈ batches.head?, batch.start = first
  contiguous : batches.IsChain fun a b => a.stop = b.start
  disjoint : batches.Pairwise fun a b => a.stop ≤ b.start
  inside : ∀ batch ∈ batches, first ≤ batch.start ∧ batch.stop ≤ total
  nonempty : ∀ batch ∈ batches, batch.start < batch.stop
  /-- A batch goes as far as its size and the rows allow. -/
  cut : ∀ batch ∈ batches, batch.stop = min (batch.start + size) total
  /-- Only the last batch may be smaller. -/
  full : ∀ batch ∈ batches.dropLast, batch.stop = batch.start + size

variable {size first total : Nat} {batches : List Batch}

theorem tiles_nil (size total : Nat) : Tiles size total total [] where
  length_eq := by simp
  rows_eq := by simp
  starts := by simp
  contiguous := .nil
  disjoint := .nil
  inside := by simp
  nonempty := by simp
  cut := by simp
  full := by simp

/-- Taking away one batch takes one from the number of batches. -/
theorem ceilDiv_eq_succ {n : Nat} (hsize : 0 < size) (hn : 0 < n) :
    n ⌈/⌉ size = (n - size) ⌈/⌉ size + 1 := by
  have hpred : n + size - 1 = n - 1 + size := by omega
  rw [Nat.ceilDiv_eq_add_pred_div, Nat.ceilDiv_eq_add_pred_div, hpred,
    Nat.add_div_right _ hsize]
  by_cases hle : size ≤ n
  · rw [Nat.sub_add_cancel hle]
  · rw [Nat.div_eq_of_lt (by omega), Nat.div_eq_of_lt (by omega)]

/-- Another batch in front, which is the only one if the rows end with it. -/
theorem Tiles.cons (hsize : 0 < size) (hfirst : first < total)
    (h : Tiles size (min (first + size) total) total batches) :
    Tiles size first total (⟨first, min (first + size) total⟩ :: batches) where
  length_eq := by
    have hrest : total - min (first + size) total = total - first - size := by omega
    rw [List.length_cons, h.length_eq, ceilDiv_eq_succ hsize (by omega : 0 < total - first), hrest]
  rows_eq := by
    have hstop : min (first + size) total = first + (min (first + size) total - first) := by omega
    have hrest : total - first =
        (min (first + size) total - first) + (total - min (first + size) total) := by omega
    rw [List.flatMap_cons, h.rows_eq, rows, hrest, ← List.range'_append_1]
    rw [← hstop]
  starts := by
    rintro _ ⟨⟩
    rfl
  contiguous := by
    refine List.isChain_cons.mpr ⟨fun batch hbatch => (h.starts batch hbatch).symm, ?_⟩
    exact h.contiguous
  disjoint :=
    List.pairwise_cons.mpr ⟨fun batch hbatch => (h.inside batch hbatch).1, h.disjoint⟩
  inside := by
    refine List.forall_mem_cons.mpr ⟨⟨le_refl _, Nat.min_le_right _ _⟩, fun batch hbatch => ?_⟩
    obtain ⟨hstart, hstop⟩ := h.inside batch hbatch
    exact ⟨by omega, hstop⟩
  nonempty := by
    refine List.forall_mem_cons.mpr ⟨?_, h.nonempty⟩
    change first < min (first + size) total
    omega
  cut := List.forall_mem_cons.mpr ⟨rfl, h.cut⟩
  full := by
    intro batch hbatch
    cases batches with
    | nil => cases hbatch
    | cons next rest =>
        rcases List.mem_cons.mp hbatch with rfl | hrest
        · -- A batch that another one follows does not end with the rows.
          have hnext := h.nonempty next List.mem_cons_self
          obtain ⟨hstart, hstop⟩ := h.inside next List.mem_cons_self
          change min (first + size) total = first + size
          omega
        · exact h.full batch hrest

end Batch

namespace Population

variable {p : Population} {batch : Batch}

/-! ## The batches of a pass -/

/-- The batches that are left of a pass, and the pass when they have all been handed out. -/
def handOut (p : Population) : List Batch × Population :=
  match h : p.nextBatch? with
  | none => ([], p)
  | some batch =>
      have := remaining_advance_lt h
      let (batches, last) := (p.advance batch.stop).handOut
      (batch :: batches, last)
termination_by p.remaining

theorem handOut_of_none (h : p.nextBatch? = none) : p.handOut = ([], p) := by
  rw [handOut]
  split
  · rfl
  · next hbatch => cases h.symm.trans hbatch

theorem handOut_of_some (h : p.nextBatch? = some batch) :
    p.handOut = (batch :: (p.advance batch.stop).handOut.1, (p.advance batch.stop).handOut.2) := by
  rw [handOut]
  split
  · next hnone => cases h.symm.trans hnone
  · next hbatch =>
    cases h.symm.trans hbatch
    rfl

/-- Handing out batches is nothing but advancing. -/
theorem exists_requests_handOut (p : Population) :
    ∃ requests, p.handOut.2 = p.performAll requests := by
  fun_induction handOut p with
  | case1 p => exact ⟨[], rfl⟩
  | case2 p batch _ _ batches last hrest ih =>
      obtain ⟨requests, hrequests⟩ := ih
      rw [hrest] at hrequests
      exact ⟨.advance batch.stop :: requests, hrequests⟩

/-- The first row that has not been handed out. -/
def firstLeft (p : Population) : Nat :=
  match p.state with
  | .idle => 0
  | .populating next => next
  | .done => p.totalRows

theorem firstLeft_advance (hbatch : p.nextBatch? = some batch) :
    (p.advance batch.stop).firstLeft = batch.stop := by
  obtain ⟨next, hstate, rfl⟩ := nextBatch?_eq_some hbatch
  by_cases hdone : min (next + p.batchSize) p.totalRows ≥ p.totalRows
  · simp only [advance, hstate, firstLeft, hdone, if_true]
    omega
  · simp only [advance, hstate, firstLeft, hdone, if_false]

/-- What is left of a pass that was started is handed out in batches, and then the pass is done. -/
theorem InGrid.tiles_handOut (h : p.InGrid) (hstarted : p.state ≠ .idle) :
    p.handOut.2.state = .done ∧
      Batch.Tiles p.batchSize p.firstLeft p.totalRows p.handOut.1 := by
  fun_induction handOut p with
  | case1 p hnone =>
      have hdone := state_eq_done hnone hstarted
      have hleft : p.firstLeft = p.totalRows := by rw [firstLeft, hdone]
      exact ⟨hdone, hleft ▸ Batch.tiles_nil _ _⟩
  | case2 p batch hbatch _ batches last hrest ih =>
      obtain ⟨hdone, htiles⟩ := ih (h.advance batch.stop) (state_advance_ne_idle hbatch)
      rw [firstLeft_advance hbatch, totalRows_advance, batchSize_advance] at htiles
      obtain ⟨next, hstate, rfl⟩ := nextBatch?_eq_some hbatch
      have hleft : p.firstLeft = next := by rw [firstLeft, hstate]
      rw [hrest] at hdone htiles
      refine ⟨hdone, ?_⟩
      rw [hleft]
      exact htiles.cons p.batchSize_pos (h next hstate)

theorem firstLeft_start (h : p.isLoading = false) : p.start.firstLeft = 0 := by
  rw [start, if_neg (by rw [h]; exact Bool.false_ne_true), firstLeft]
  by_cases hrows : p.totalRows = 0 <;> simp [hrows]

theorem inGrid_of_not_isLoading (h : p.isLoading = false) : p.InGrid := by
  intro next hstate
  rw [isLoading, hstate] at h
  cases h

/-- A pass that starts anew hands out all rows. -/
theorem tiles_start (h : p.isLoading = false) :
    p.start.handOut.2.state = .done ∧
      Batch.Tiles p.batchSize 0 p.totalRows p.start.handOut.1 := by
  have htiles := (inGrid_of_not_isLoading h).start.tiles_handOut p.state_start_ne_idle
  rwa [firstLeft_start h, totalRows_start, batchSize_start] at htiles

end Population

/-! ## Batches in words -/

namespace Batch

/-- A sum of words, or the greatest word of 32 bits if the sum is no word. -/
def saturatingAdd (a b : UInt32) : UInt32 :=
  if a.toNat + b.toNat < UInt32.size then a + b else .ofNat Coord.maxIndex

theorem toNat_saturatingAdd (a b : UInt32) :
    (saturatingAdd a b).toNat = min (a.toNat + b.toNat) Coord.maxIndex := by
  unfold saturatingAdd
  split
  · next hfits =>
    rw [UInt32.toNat_add, Nat.mod_eq_of_lt hfits]
    exact (Nat.min_eq_left (Nat.le_of_lt_succ hfits)).symm
  · next hfits => exact (Nat.min_eq_right (Nat.le_of_succ_le (Nat.not_lt.mp hfits))).symm

/-- The batch is computed in words: it starts at a word, and counting the size of a batch from there
gives its end, which is cut off at the number of rows. -/
def FitsWords (size total : UInt32) (batch : Batch) : Prop :=
  ∃ start : UInt32, start.toNat = batch.start ∧
    (min (saturatingAdd start size) total).toNat = batch.stop

variable {size total : UInt32} {batches : List Batch}

/-- Words are enough for all batches if they are for the number of rows. -/
theorem Tiles.fitsWords (h : Tiles size.toNat 0 total.toNat batches) {batch : Batch}
    (hbatch : batch ∈ batches) : batch.FitsWords size total := by
  have hstart := h.nonempty batch hbatch
  obtain ⟨-, hstop⟩ := h.inside batch hbatch
  have htotal := total.toNat_lt
  have hword : (UInt32.ofNat batch.start).toNat = batch.start :=
    UInt32.toNat_ofNat_of_lt' (by rw [UInt32.size]; omega)
  refine ⟨_, hword, ?_⟩
  rw [UInt32.toNat_min, toNat_saturatingAdd, hword, h.cut batch hbatch, Coord.maxIndex]
  omega

end Batch

end LiveSheet
