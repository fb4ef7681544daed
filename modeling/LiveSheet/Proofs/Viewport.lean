import LiveSheet.Viewport
import Mathlib.Tactic.ByContra

/-! # Rows on the page

Whether the rows on the page are among those that are prepared. The band of prepared rows starts
before the page by the leading buffer, and its end is counted from there. So it ends before the
page does if the leading buffer is larger than the trailing one can make up for. -/

namespace LiveSheet.Viewport

/-- A row is on the page, at least in part. -/
def Shows (v : Viewport) (row : Nat) : Prop :=
  v.firstVisibleRow ≤ row ∧ row < v.firstVisibleRow + v.rowsPerPage

variable {v : Viewport} {totalRows leading trailing row : Nat} {band : RowBand}

theorem band?_eq (v : Viewport) (h : 0 < totalRows) (leading trailing : Nat) :
    v.band? totalRows leading trailing =
      let start := min (v.firstVisibleRow - leading) (totalRows - 1)
      some ⟨start, min (start + v.rowsPerPage + trailing) (totalRows - 1)⟩ :=
  if_neg (Nat.ne_of_gt h)

/-- A row of the page is prepared unless it lies further behind the start of the band than the
rows of a page and the trailing buffer reach. -/
theorem contains_band?_iff (h : v.band? totalRows leading trailing = some band)
    (hrow : row < totalRows) (hshown : v.Shows row) :
    band.contains row = true ↔
      row ≤ v.firstVisibleRow - leading + v.rowsPerPage + trailing := by
  obtain ⟨hfirst, -⟩ := hshown
  rw [band?_eq v (Nat.zero_lt_of_lt hrow)] at h
  cases h
  simp only [RowBand.contains, Bool.and_eq_true, decide_eq_true_eq]
  omega

/-- The leading buffer takes no row of the page away if it is larger than the trailing one by no
more than one row, or if the page is that close to the top. -/
theorem contains_band?_of_shows (h : v.band? totalRows leading trailing = some band)
    (hbuffers : min v.firstVisibleRow leading ≤ trailing + 1) (hrow : row < totalRows)
    (hshown : v.Shows row) : band.contains row = true := by
  rw [contains_band?_iff h hrow hshown]
  obtain ⟨-, hlast⟩ := hshown
  omega

/-- Every grid with a row has a band of prepared rows. A row of the page is in it if it lies no
further behind the start of the band than the rows of a page and the trailing buffer reach. All
rows of the page are in it if the leading buffer is larger than the trailing one by no more than
one row, or if the page is that close to the top. Otherwise they are only if the page shows no
row at all, or the band goes on to the end of the grid. -/
theorem band?_contains_shown_iff (v : Viewport) (h : 0 < totalRows) (leading trailing : Nat) :
    ∃ band, v.band? totalRows leading trailing = some band ∧
      (∀ row < totalRows, v.Shows row → (band.contains row = true ↔
        row ≤ v.firstVisibleRow - leading + v.rowsPerPage + trailing)) ∧
      ((∀ row < totalRows, v.Shows row → band.contains row = true) ↔
        min v.firstVisibleRow leading ≤ trailing + 1 ∨
          v.rowsPerPage = 0 ∨ totalRows ≤ v.firstVisibleRow ∨
            totalRows ≤ v.firstVisibleRow - leading + v.rowsPerPage + trailing + 1) := by
  refine ⟨_, band?_eq v h leading trailing, fun row => contains_band?_iff (band?_eq v h _ _),
    fun hall => ?_, fun hcases row hrow hshown => ?_⟩
  · by_contra hcases
    -- The last row of the page that the grid has is not prepared.
    have hrow : min (v.firstVisibleRow + v.rowsPerPage) totalRows - 1 < totalRows := by omega
    have hshown : v.Shows (min (v.firstVisibleRow + v.rowsPerPage) totalRows - 1) := by
      constructor <;> omega
    have hlast := (contains_band?_iff (band?_eq v h _ _) hrow hshown).mp (hall _ hrow hshown)
    omega
  · rcases hcases with hbuffers | hcases
    · exact contains_band?_of_shows (band?_eq v h _ _) hbuffers hrow hshown
    · rw [contains_band?_iff (band?_eq v h _ _) hrow hshown]
      obtain ⟨hfirst, hlast⟩ := hshown
      omega

/-- The usual buffers, with the page in the middle of a large grid. -/
theorem contains_shown_of_usual_buffers :
    ∃ band, (default.scrollTo 2412).band? 1000000 5 5 = some band ∧
      ∀ row, 100 ≤ row → row < 120 → band.contains row = true := by
  obtain ⟨band, hband, -, hall⟩ :=
    band?_contains_shown_iff (default.scrollTo 2412) (by decide : 0 < 1000000) 5 5
  have hfirst : (default.scrollTo 2412).firstVisibleRow = 100 := by decide +kernel
  have hpage : (default.scrollTo 2412).rowsPerPage = 20 := by decide +kernel
  refine ⟨band, hband, fun row hge hlt => hall.mpr (.inl ?_) row (by omega) ⟨?_, ?_⟩⟩
  · rw [hfirst]
    decide
  · rwa [hfirst]
  · rwa [hfirst, hpage]

/-- A page of five rows at the end of a grid, of which none is prepared. -/
theorem not_forall_contains_shown :
    ¬∀ (v : Viewport) (totalRows leading trailing : Nat), 0 < totalRows →
      ∃ band, v.band? totalRows leading trailing = some band ∧
        ∀ row < totalRows, v.Shows row → band.contains row = true := by
  intro h
  obtain ⟨band, hband, hall⟩ := h ((atTop 1 5).scrollTo 10) 15 10 0 (by decide)
  have hfirst : ((atTop 1 5).scrollTo 10).firstVisibleRow = 10 := by decide +kernel
  have hpage : ((atTop 1 5).scrollTo 10).rowsPerPage = 5 := by decide +kernel
  have hshown : ((atTop 1 5).scrollTo 10).Shows 10 := by
    rw [Shows, hfirst, hpage]
    decide
  have hcontains := (contains_band?_iff hband (by decide) hshown).mp (hall 10 (by decide) hshown)
  rw [hfirst, hpage] at hcontains
  exact absurd hcontains (by decide)

end LiveSheet.Viewport
