import LiveSheet.Proofs.BlockGrid.Writes

/-! # Bands of rows

The query for a band of rows leaves out the blocks that do not overlap the band, and then the
cells of the other blocks that lie outside of it. A scan of all cells with the second filter alone
finds the same, because a cell of the band lies in a block that overlaps the band. -/

namespace LiveSheet

namespace Coord

/-! ## Row-major order -/

theorem rowMajor_total (a b : Coord) : (a.rowMajor b || b.rowMajor a) = true := by
  rw [rowMajor, rowMajor]
  cases hab : compare a b with
  | lt => rfl
  | eq => rfl
  | gt => rw [Std.OrientedCmp.lt_of_gt hab]; rfl

theorem rowMajor_trans {a b c : Coord} (hab : a.rowMajor b = true) (hbc : b.rowMajor c = true) :
    a.rowMajor c = true :=
  Std.TransCmp.isLE_trans hab hbc

theorem lt_of_rowMajor {a b : Coord} (hab : a.rowMajor b = true) (hne : a ≠ b) :
    compare a b = .lt := by
  cases h : compare a b with
  | lt => rfl
  | eq => exact absurd (Std.LawfulEqOrd.eq_of_compare h) hne
  | gt => simp [rowMajor, h] at hab

/-- The cells come in strictly increasing row-major order, so none of them comes twice. -/
def Ascending (cells : List Coord) : Prop :=
  cells.Pairwise fun a b => compare a b = .lt

end Coord

namespace BlockGrid

variable {α : Type} {g : BlockGrid α} {cells : List (Coord × α)}

theorem mem_sortCells_iff (cell : Coord × α) : cell ∈ sortCells cells ↔ cell ∈ cells :=
  List.mem_mergeSort

theorem ascending_sortCells (h : (cells.map Prod.fst).Nodup) :
    Coord.Ascending ((sortCells cells).map Prod.fst) := by
  have hsorted : (sortCells cells).Pairwise fun a b => a.1.rowMajor b.1 = true :=
    List.pairwise_mergeSort (fun a b c => Coord.rowMajor_trans (a := a.1) (b := b.1) (c := c.1))
      (fun a b => a.1.rowMajor_total b.1) cells
  have hdistinct : (sortCells cells).Pairwise fun a b => a.1 ≠ b.1 :=
    List.pairwise_map.mp (((List.mergeSort_perm cells _).map Prod.fst).nodup_iff.mpr h)
  exact List.pairwise_map.mpr (hsorted.imp₂ (fun _ _ => Coord.lt_of_rowMajor) hdistinct)

/-! ## The filters -/

/-- The cell lies in the rows from `first` to `last`, both included. -/
def inBand (first last : Nat) (cell : Coord × α) : Bool :=
  first ≤ cell.1.row && cell.1.row ≤ last

/-- The block has rows of the band. -/
def overlapsBand (first last : Nat) (entry : Block × Std.HashMap Place α) : Bool :=
  first / Block.side ≤ entry.1.row && entry.1.row ≤ last / Block.side

variable {first last : Nat}

theorem inBand_iff {cell : Coord × α} :
    inBand first last cell = true ↔ first ≤ cell.1.row ∧ cell.1.row ≤ last := by
  rw [inBand, Bool.and_eq_true, decide_eq_true_iff, decide_eq_true_iff]

theorem rows_of_le (h : first ≤ last) :
    g.rows first last = sortCells
      (((g.blocks.toList.filter (overlapsBand first last)).flatMap fun (b, block) =>
        blockToList b block).filter (inBand first last)) :=
  if_neg (Nat.not_lt.mpr h)

/-- Where a band has a row of a block, the block overlaps the band: dividing by the side of a
block keeps the order of the rows, wherever in their blocks the band begins and ends. -/
theorem Tidy.overlapsBand (h : g.Tidy) {b : Block} {block : Std.HashMap Place α}
    (hblock : g.blocks[b]? = some block) {cell : Coord × α} (hcell : cell ∈ blockToList b block)
    (hband : inBand first last cell = true) : overlapsBand first last (b, block) = true := by
  obtain ⟨p, hp, hcoord⟩ := mem_blockToList_fst (List.mem_map_of_mem hcell)
  obtain ⟨hrow, hcol⟩ := h b block hblock p hp
  have hb : (Block.of cell.1).row = b.row := by
    rw [← hcoord, Block.of_coord b hrow hcol]
  obtain ⟨hfirst, hlast⟩ := inBand_iff.mp hband
  rw [BlockGrid.overlapsBand, Bool.and_eq_true, decide_eq_true_iff, decide_eq_true_iff, ← hb]
  exact ⟨Nat.div_le_div_right hfirst, Nat.div_le_div_right hlast⟩

/-- Entries that contribute nothing can be left out. -/
theorem flatMap_filter_eq {β γ : Type} {f : β → List γ} {keep : β → Bool} {entries : List β}
    (h : ∀ entry ∈ entries, keep entry = false → f entry = []) :
    (entries.filter keep).flatMap f = entries.flatMap f := by
  induction entries with
  | nil => rfl
  | cons entry rest ih =>
      have hrest := ih fun entry' hentry => h entry' (List.mem_cons_of_mem _ hentry)
      cases hkeep : keep entry with
      | true => rw [List.filter_cons_of_pos hkeep, List.flatMap_cons, List.flatMap_cons, hrest]
      | false =>
          rw [List.filter_cons_of_neg (by rw [hkeep]; exact Bool.false_ne_true), hrest,
            List.flatMap_cons, h entry List.mem_cons_self hkeep, List.nil_append]

/-- The filter of the blocks drops no cell of the band. -/
theorem Tidy.rows_eq (h : g.Tidy) (first last : Nat) :
    g.rows first last = sortCells (g.toList.filter (inBand first last)) := by
  by_cases hle : first ≤ last
  · rw [rows_of_le hle, toList, List.filter_flatMap, List.filter_flatMap]
    refine congrArg sortCells (flatMap_filter_eq fun entry hentry hkeep => ?_)
    refine List.filter_eq_nil_iff.mpr fun cell hcell hband => ?_
    rw [h.overlapsBand (Std.HashMap.mem_toList_iff_getElem?_eq_some.mp hentry) hcell hband] at hkeep
    cases hkeep
  · have hnone : g.toList.filter (inBand first last) = [] := by
      refine List.filter_eq_nil_iff.mpr fun cell _ hband => hle ?_
      obtain ⟨hfirst, hlast⟩ := inBand_iff.mp hband
      exact Nat.le_trans hfirst hlast
    rw [hnone, rows, if_pos (Nat.not_le.mp hle)]
    exact List.mergeSort_nil.symm

theorem Tidy.mem_rows_iff (h : g.Tidy) (c : Coord) (value : α) :
    (c, value) ∈ g.rows first last ↔ first ≤ c.row ∧ c.row ≤ last ∧ g.get? c = some value := by
  rw [h.rows_eq, mem_sortCells_iff, List.mem_filter, mem_toList_iff h, inBand_iff,
    and_comm, and_assoc]

theorem Tidy.ascending_rows (h : g.Tidy) (first last : Nat) :
    Coord.Ascending ((g.rows first last).map Prod.fst) := by
  rw [h.rows_eq]
  exact ascending_sortCells (h.nodup_cells.sublist (List.filter_sublist.map _))

/-- The query for a band of rows is a plain scan, however the grid came to hold its values and
wherever the band begins and ends: it finds the cells of the band that hold a value, each once
and with its value, in row-major order, and it finds none if the band has no rows. -/
theorem rows_performAll (writes : List (Write α)) (first last : Nat) :
    let g := ((∅ : BlockGrid α).performAll writes).2
    let m := (Plain.empty.performAll writes).2
    g.rows first last = sortCells (g.toList.filter (inBand first last)) ∧
      (∀ c value, (c, value) ∈ g.rows first last ↔
        first ≤ c.row ∧ c.row ≤ last ∧ m c = some value) ∧
      Coord.Ascending ((g.rows first last).map Prod.fst) ∧
      (last < first → g.rows first last = []) := by
  intro g m
  obtain ⟨-, h⟩ := represents_empty.performAll writes
  refine ⟨h.tidy.rows_eq first last, fun c value => ?_, h.tidy.ascending_rows first last,
    fun hlt => if_pos hlt⟩
  rw [h.tidy.mem_rows_iff, h.get?_eq]

/-- The last row of the coordinate space is a band that begins and ends inside a block. No other
row lies beyond it. -/
theorem rows_performAll_last_row :
    let last : Coord := ⟨Coord.maxIndex, 3⟩
    let writes : List (Write Nat) := [.insert ⟨Coord.maxIndex - 1, 0⟩ 1, .insert last 2]
    let g := (performAll ∅ writes).2
    (last, 2) ∈ g.rows Coord.maxIndex Coord.maxIndex ∧
      (∀ c value, (c, value) ∈ g.rows Coord.maxIndex Coord.maxIndex → c.row = Coord.maxIndex) ∧
      g.rows Coord.maxIndex (Coord.maxIndex - 1) = [] := by
  intro last writes g
  obtain ⟨-, hmem, -, -⟩ := rows_performAll writes Coord.maxIndex Coord.maxIndex
  obtain ⟨-, -, -, hnone⟩ := rows_performAll writes Coord.maxIndex (Coord.maxIndex - 1)
  refine ⟨(hmem last 2).mpr ⟨Nat.le_refl _, Nat.le_refl _, by decide⟩, fun c value hc => ?_,
    hnone (by decide)⟩
  obtain ⟨hfirst, hlast, -⟩ := (hmem c value).mp hc
  exact Nat.le_antisymm hlast hfirst

end BlockGrid

end LiveSheet
