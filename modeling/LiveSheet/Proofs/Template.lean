import LiveSheet.Template
import Mathlib.Logic.Basic

/-! # Rows that say what they hold

A template says of a row whether there is text in it, so that nobody has to look through its
columns. The templates that come with the library should say what such a look would show. The
running sum does not in one case: it looks for its text in column B only, and in the first row
there is a text in column A. -/

namespace LiveSheet.Template

variable {row cols : Nat}

/-- What the template says of a row is what a look through its columns shows. -/
def Candid (t : Template) (row cols : Nat) : Prop :=
  t.hasContent row cols = true ↔ ∃ col < cols, t.text? ⟨row, col⟩ ≠ none

/-- A template that looks through the columns says what is there. -/
theorem candid_ofTexts (text? : Coord → Option String) (row cols : Nat) :
    (ofTexts text?).Candid row cols := by
  change (cols.any fun col _ => (text? ⟨row, col⟩).isSome) = true ↔ _
  rw [Nat.any_eq_finRange_any, List.any_eq_true]
  constructor
  · rintro ⟨⟨col, hcol⟩, -, htext⟩
    exact ⟨col, hcol, Option.isSome_iff_ne_none.mp htext⟩
  · rintro ⟨col, hcol, htext⟩
    exact ⟨⟨col, hcol⟩, List.mem_finRange _, Option.isSome_iff_ne_none.mpr htext⟩

/-- To be candid is to agree with the look through the columns. -/
theorem candid_iff (t : Template) (row cols : Nat) :
    t.Candid row cols ↔ t.hasContent row cols = (ofTexts t.text?).hasContent row cols := by
  have hscan : (ofTexts t.text?).hasContent row cols = true ↔
      ∃ col < cols, t.text? ⟨row, col⟩ ≠ none := candid_ofTexts t.text? row cols
  rw [Candid, ← hscan]
  exact Bool.eq_iff_iff.symm

theorem candid_iff_of_text {t : Template} {filled : Nat → Prop}
    (htext : ∀ col, t.text? ⟨row, col⟩ ≠ none ↔ filled col) :
    t.Candid row cols ↔ (t.hasContent row cols = true ↔ ∃ col < cols, filled col) := by
  simp only [Candid, htext]

theorem candid_blank (row cols : Nat) : blank.Candid row cols := by
  refine iff_of_false Bool.false_ne_true ?_
  rintro ⟨col, -, htext⟩
  exact htext rfl

theorem candid_labels (width row cols : Nat) : (labels width).Candid row cols := by
  rw [candid_iff_of_text fun col =>
    ite_ne_right_iff.trans (and_iff_left (Option.some_ne_none _))]
  simp only [labels, gt_iff_lt, decide_eq_true_eq, Nat.lt_min]
  constructor
  · rintro ⟨hwidth, hcols⟩
    exact ⟨0, hcols, hwidth⟩
  · rintro ⟨col, hcol, hwidth⟩
    exact ⟨Nat.zero_lt_of_lt hwidth, Nat.zero_lt_of_lt hcol⟩

/-- A running sum fills column B, and the first cell of column A. -/
theorem chainText?_ne_none_iff (seed : String) (c : Coord) :
    chainText? seed c ≠ none ↔ c.col = 1 ∨ (c.row = 0 ∧ c.col = 0) := by
  unfold chainText?
  split <;> simp_all

theorem candid_chain_iff (seed : String) (row cols : Nat) :
    (chain seed).Candid row cols ↔ ¬(row = 0 ∧ cols = 1) := by
  rw [candid_iff_of_text fun col => chainText?_ne_none_iff seed ⟨row, col⟩]
  simp only [chain, gt_iff_lt, decide_eq_true_eq]
  constructor
  · rintro hcandid ⟨rfl, rfl⟩
    exact absurd (hcandid.mpr ⟨0, Nat.zero_lt_one, .inr ⟨rfl, rfl⟩⟩) (Nat.lt_irrefl 1)
  · intro hother
    constructor
    · exact fun hcols => ⟨1, hcols, .inl rfl⟩
    · rintro ⟨col, hcol, rfl | ⟨rfl, rfl⟩⟩
      · exact hcol
      · omega

/-- The templates that come with the library say of a row what a look through its columns shows,
whatever the row, the width of the grid, the seed and the number of labelled columns may be. The
one exception is the first row of a running sum in a grid of one column. -/
theorem hasContent_eq_scan_iff (seed : String) (width row cols : Nat) :
    blank.hasContent row cols = (ofTexts blank.text?).hasContent row cols ∧
      (labels width).hasContent row cols =
        (ofTexts (labels width).text?).hasContent row cols ∧
      ((chain seed).hasContent row cols = (ofTexts (chain seed).text?).hasContent row cols ↔
        ¬(row = 0 ∧ cols = 1)) ∧
      ∀ text?, (ofTexts text?).hasContent row cols = true ↔
        ∃ col < cols, text? ⟨row, col⟩ ≠ none := by
  refine ⟨(candid_iff _ _ _).mp (candid_blank row cols),
    (candid_iff _ _ _).mp (candid_labels width row cols), ?_,
    fun text? => candid_ofTexts text? row cols⟩
  rw [← candid_iff, candid_chain_iff]

/-- A grid of one column has the seed of a running sum in its first row, of which the template
says that there is nothing in it. -/
theorem not_forall_chain_hasContent :
    ¬∀ seed row cols, (chain seed).hasContent row cols = true ↔
      ∃ col < cols, (chain seed).text? ⟨row, col⟩ ≠ none := by
  intro h
  exact (candid_chain_iff defaultSeed 0 1).mp (h defaultSeed 0 1) ⟨rfl, rfl⟩

end LiveSheet.Template
