import LiveSheet.Proofs.Decimal.Quotient
import LiveSheet.Proofs.Viewport

/-! # Scrolling

Whatever numbers a viewport is scrolled and resized to, the rows to prepare are a band of the grid,
and scrolling further down moves neither end of the band up. Rows are counted in words on the way: a
sum stops at the greatest word, and the ends of the band are cut to half a word. No row is lost by
that. -/

namespace LiveSheet.Viewport

open Binary

/-- The viewports on rows of one height that scrolling and resizing lead to. -/
inductive Reached (rowHeight : Float) : Viewport → Prop
  | atTop (height : Float) : Reached rowHeight (atTop rowHeight height)
  | scrollTo {v : Viewport} (h : Reached rowHeight v) (offset : Float) :
      Reached rowHeight (v.scrollTo offset)
  | setHeight {v : Viewport} (h : Reached rowHeight v) (height : Float) :
      Reached rowHeight (v.setHeight height)

/-- The band of rows to prepare, computed in words. -/
def bandInWords? (v : Viewport) (totalRows leading trailing : UInt32) : Option (UInt32 × UInt32) :=
  if totalRows = 0 then none
  else
    let last := (totalRows - 1).toUInt64
    let page := UInt64.ofNat v.firstVisibleRow
    let start := min (UInt64.ofNatClamp (page.toNat - leading.toNat)) last
    let pageEnd := UInt64.ofNatClamp (start.toNat + (UInt64.ofNat v.rowsPerPage).toNat)
    let stop := min (UInt64.ofNatClamp (pageEnd.toNat + trailing.toNat)) last
    some (start.toUInt32, stop.toUInt32)

variable {rowHeight : Float} {v w : Viewport}

theorem length_cases (x : Float) : length x = 0 ∨ 0 < length x := by
  unfold length
  split
  · next hpos => exact .inr hpos
  · exact .inl rfl

/-- Scrolling and resizing keep the height of the rows, and the scroll offset is never negative and
always a number. -/
theorem Reached.rowHeight_eq (h : Reached rowHeight v) :
    v.rowHeight = rowHeight ∧ (v.scrollOffset = 0 ∨ 0 < v.scrollOffset) := by
  induction h with
  | atTop height => exact ⟨rfl, .inl rfl⟩
  | scrollTo _ offset ih => exact ⟨ih.1, length_cases offset⟩
  | setHeight _ height ih => exact ih

theorem firstVisibleRow_of_pos (h : 0 < v.rowHeight) :
    v.firstVisibleRow = (v.scrollOffset / v.rowHeight).toUInt64.toNat :=
  if_neg (not_le_zero_of_pos h)

theorem firstVisibleRow_le_maxWord (v : Viewport) : v.firstVisibleRow ≤ maxWord := by
  unfold firstVisibleRow
  split
  · exact Nat.zero_le _
  · exact Nat.le_of_lt_succ (UInt64.toNat_lt _)

theorem rowsPerPage_le_maxWord (v : Viewport) : v.rowsPerPage ≤ maxWord := by
  have hlt := (v.height / v.rowHeight).toUInt64.toNat_lt
  unfold rowsPerPage roundUp wholePart
  simp only
  split
  · exact Nat.zero_le _
  · split
    · unfold maxWord
      omega
    · exact Nat.le_of_lt_succ hlt

theorem Reached.firstVisibleRow_mono (hrow : 0 < rowHeight) (hv : Reached rowHeight v)
    (hw : Reached rowHeight w) (h : ¬w.scrollOffset < v.scrollOffset) :
    v.firstVisibleRow ≤ w.firstVisibleRow := by
  obtain ⟨rfl, hlength⟩ := hv.rowHeight_eq
  obtain ⟨heq, hlength'⟩ := hw.rowHeight_eq
  rw [firstVisibleRow_of_pos hrow, firstVisibleRow_of_pos (heq ▸ hrow), heq]
  exact toUInt64_div_mono hrow hlength hlength' h

/-- Viewports of one height on rows of one height show the same number of rows. -/
theorem Reached.rowsPerPage_eq (hv : Reached rowHeight v) (hw : Reached rowHeight w)
    (hheight : w.height = v.height) : w.rowsPerPage = v.rowsPerPage := by
  unfold rowsPerPage
  rw [hv.rowHeight_eq.1, hw.rowHeight_eq.1, hheight]

/-- A sum that stops at the greatest word is cut off at the last row no other than one that does not
stop, and nothing is lost when the row is cut to half a word. -/
theorem toNat_min_last {totalRows : UInt32} (h : 1 ≤ totalRows) (n : Nat) :
    (min (UInt64.ofNatClamp n) (totalRows - 1).toUInt64).toNat = min n (totalRows.toNat - 1) ∧
      (min (UInt64.ofNatClamp n) (totalRows - 1).toUInt64).toUInt32.toNat =
        min n (totalRows.toNat - 1) := by
  have htotal := totalRows.toNat_lt
  have hlast : (totalRows - 1).toNat = totalRows.toNat - 1 := UInt32.toNat_sub_of_le _ _ h
  rw [UInt64.toNat_toUInt32, UInt64.toNat_min, toNat_ofNatClamp, UInt32.toNat_toUInt64, hlast,
    maxWord]
  omega

/-- Words are enough to compute the band. -/
theorem exists_bandInWords? (v : Viewport) {totalRows : UInt32} (h : 1 ≤ totalRows)
    (leading trailing : UInt32) : ∃ first last,
      v.bandInWords? totalRows leading trailing = some (first, last) ∧
        v.band? totalRows.toNat leading.toNat trailing.toNat = some ⟨first.toNat, last.toNat⟩ := by
  have hpos : 0 < totalRows.toNat := UInt32.le_iff_toNat_le.mp h
  have hne : totalRows ≠ 0 := fun heq => hpos.ne' (congrArg UInt32.toNat heq)
  have hpage : (UInt64.ofNat v.firstVisibleRow).toNat = v.firstVisibleRow :=
    UInt64.toNat_ofNat_of_lt' (Nat.lt_succ_of_le v.firstVisibleRow_le_maxWord)
  have hrows : (UInt64.ofNat v.rowsPerPage).toNat = v.rowsPerPage :=
    UInt64.toNat_ofNat_of_lt' (Nat.lt_succ_of_le v.rowsPerPage_le_maxWord)
  refine ⟨_, _, if_neg hne, ?_⟩
  rw [band?_eq v hpos, (toNat_min_last h _).2, (toNat_min_last h _).2, (toNat_min_last h _).1,
    hpage, hrows, toNat_ofNatClamp]
  have htotal := totalRows.toNat_lt
  simp only [maxWord, Option.some.injEq, RowBand.mk.injEq, true_and]
  omega

/-- In a grid with a row, every viewport over rows of positive height has a band of prepared rows,
whatever numbers it has been scrolled and resized to. The band is not empty and lies in the grid, it
comes out the same in words, and neither of its ends moves up when the viewport, at the same height,
is scrolled further down. -/
theorem band?_mono_scrollOffset (hrow : 0 < rowHeight) (hv : Reached rowHeight v)
    {totalRows : UInt32} (htotal : 1 ≤ totalRows) (leading trailing : UInt32) :
    ∃ first last : UInt32,
      v.band? totalRows.toNat leading.toNat trailing.toNat = some ⟨first.toNat, last.toNat⟩ ∧
      first ≤ last ∧ last ≤ totalRows - 1 ∧
      v.bandInWords? totalRows leading trailing = some (first, last) ∧
      v.firstVisibleRow ≤ maxWord ∧ v.rowsPerPage ≤ maxWord ∧
      ∀ w, Reached rowHeight w → w.height = v.height → ¬w.scrollOffset < v.scrollOffset →
        ∃ first' last' : UInt32,
          w.band? totalRows.toNat leading.toNat trailing.toNat =
            some ⟨first'.toNat, last'.toNat⟩ ∧ first ≤ first' ∧ last ≤ last' := by
  have hpos : 0 < totalRows.toNat := UInt32.le_iff_toNat_le.mp htotal
  have hlast : (totalRows - 1).toNat = totalRows.toNat - 1 := UInt32.toNat_sub_of_le _ _ htotal
  obtain ⟨first, last, hwords, hband⟩ := exists_bandInWords? v htotal leading trailing
  have hends := (band?_eq v hpos leading.toNat trailing.toNat).symm.trans hband
  simp only [Option.some.injEq, RowBand.mk.injEq] at hends
  refine ⟨first, last, hband, ?_, ?_, hwords, v.firstVisibleRow_le_maxWord,
    v.rowsPerPage_le_maxWord, fun w hw hheight hoffset => ?_⟩
  · rw [UInt32.le_iff_toNat_le]
    omega
  · rw [UInt32.le_iff_toNat_le, hlast]
    omega
  · obtain ⟨first', last', -, hband'⟩ := exists_bandInWords? w htotal leading trailing
    have hends' := (band?_eq w hpos leading.toNat trailing.toNat).symm.trans hband'
    simp only [Option.some.injEq, RowBand.mk.injEq, hv.rowsPerPage_eq hw hheight] at hends'
    have hmono := hv.firstVisibleRow_mono hrow hw hoffset
    refine ⟨first', last', hband', ?_, ?_⟩
    all_goals
      rw [UInt32.le_iff_toNat_le]
      omega

/-- A thousand rows, and a viewport that is scrolled on past all of them. -/
theorem band?_mono_scrollOffset_of_usual_buffers : ∃ first last : UInt32,
    ((atTop 24 480).scrollTo 2412).band? 1000 5 5 = some ⟨first.toNat, last.toNat⟩ ∧
      first ≤ last ∧ last ≤ 999 ∧
      ∃ first' last' : UInt32,
        (((atTop 24 480).scrollTo 2412).scrollTo (1 / 0)).band? 1000 5 5 =
          some ⟨first'.toNat, last'.toNat⟩ ∧ first ≤ first' ∧ last ≤ last' := by
  have hv : Reached 24 ((atTop 24 480).scrollTo 2412) := (Reached.atTop 480).scrollTo 2412
  have hfurther : ¬length (1 / 0) < length 2412 := by decide +kernel
  obtain ⟨first, last, hband, hle, hlast, -, -, -, hmono⟩ :=
    band?_mono_scrollOffset (by decide +kernel : (0 : Float) < 24) hv
      (by decide : (1 : UInt32) ≤ 1000) 5 5
  exact ⟨first, last, hband, hle, hlast, hmono _ (hv.scrollTo (1 / 0)) rfl hfurther⟩

end LiveSheet.Viewport
