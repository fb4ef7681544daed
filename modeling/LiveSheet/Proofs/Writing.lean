import LiveSheet.Formula
import Mathlib.Logic.Relation

/-! # What is written

The raw texts of the cells, and the references between cells that follow from them. A cell
leads to a cycle if following references from it can reach a cell that refers to itself,
directly or through others; a cell on a cycle leads to that cycle. -/

namespace LiveSheet

/-- The raw text of every cell that has one. -/
abbrev Writing := Coord → Option String

namespace Writing

/-- The cells that the formula of a cell refers to, in order of appearance. A cell without a
formula refers to nothing. -/
def references (t : Writing) (c : Coord) : List Coord :=
  match t c with
  | some raw => if Formula.isFormula raw then (Formula.ofRaw raw).references else []
  | none => []

/-- The formula of `c` refers to `p`. -/
def Refers (t : Writing) (c p : Coord) : Prop :=
  p ∈ t.references c

/-- Following references from `c` leads back to `c`. -/
def OnCycle (t : Writing) (c : Coord) : Prop :=
  Relation.TransGen t.Refers c c

/-- Following references from `c` can reach a cell on a cycle. -/
def LeadsToCycle (t : Writing) (c : Coord) : Prop :=
  ∃ d, Relation.ReflTransGen t.Refers c d ∧ t.OnCycle d

variable {t t' : Writing} {c p : Coord}

theorem references_of_formula {raw : String} (hraw : t c = some raw)
    (hformula : Formula.isFormula raw = true) :
    t.references c = (Formula.ofRaw raw).references := by
  simp only [references, hraw, hformula, if_true]

theorem references_of_literal {raw : String} (hraw : t c = some raw)
    (hliteral : Formula.isFormula raw = false) : t.references c = [] := by
  simp only [references, hraw, hliteral, Bool.false_eq_true, if_false]

theorem references_of_blank (hblank : t c = none) : t.references c = [] := by
  simp only [references, hblank]

theorem references_congr (h : t c = t' c) : t.references c = t'.references c := by
  simp only [references, h]

/-- Only a formula refers to anything. -/
theorem Refers.exists_formula (h : t.Refers c p) :
    ∃ raw, t c = some raw ∧ Formula.isFormula raw = true ∧
      p ∈ (Formula.ofRaw raw).references := by
  unfold Refers at h
  cases hraw : t c with
  | none =>
      rw [references_of_blank hraw] at h
      cases h
  | some raw =>
      cases hformula : Formula.isFormula raw with
      | false =>
          rw [references_of_literal hraw hformula] at h
          cases h
      | true => exact ⟨raw, rfl, hformula, references_of_formula hraw hformula ▸ h⟩

theorem refers_iff {raw : String} (hraw : t c = some raw)
    (hformula : Formula.isFormula raw = true) :
    t.Refers c p ↔ p ∈ (Formula.ofRaw raw).references := by
  rw [Refers, references_of_formula hraw hformula]

theorem OnCycle.leadsToCycle (h : t.OnCycle c) : t.LeadsToCycle c :=
  ⟨c, .refl, h⟩

theorem LeadsToCycle.of_refers (hcp : t.Refers c p) (h : t.LeadsToCycle p) :
    t.LeadsToCycle c := by
  obtain ⟨d, hpath, hcycle⟩ := h
  exact ⟨d, .head hcp hpath, hcycle⟩

/-- There are no cycles if every formula refers to cells of lower rank only. -/
theorem not_onCycle_of_rank (rank : Coord → Nat)
    (h : ∀ c raw, t c = some raw → Formula.isFormula raw = true →
      ∀ p ∈ (Formula.ofRaw raw).references, rank p < rank c) (c : Coord) : ¬t.OnCycle c := by
  have hstep : ∀ a b, t.Refers a b → rank b < rank a := by
    intro a b hab
    obtain ⟨raw, hraw, hformula, hb⟩ := hab.exists_formula
    exact h a raw hraw hformula b hb
  have hpath : ∀ a b, Relation.TransGen t.Refers a b → rank b < rank a := by
    intro a b hab
    induction hab with
    | single hab => exact hstep _ _ hab
    | tail _ hbc ih => exact Nat.lt_trans (hstep _ _ hbc) ih
  exact fun hcycle => Nat.lt_irrefl _ (hpath c c hcycle)

/-- A cell that leads to a cycle refers to a cell that does. -/
theorem LeadsToCycle.exists_refers (h : t.LeadsToCycle c) :
    ∃ p, t.Refers c p ∧ t.LeadsToCycle p := by
  obtain ⟨d, hpath, hcycle⟩ := h
  rcases Relation.ReflTransGen.cases_head hpath with rfl | ⟨p, hcp, hpd⟩
  · obtain ⟨p, hcp, hpc⟩ := Relation.TransGen.head'_iff.mp hcycle
    exact ⟨p, hcp, c, hpc, hcycle⟩
  · exact ⟨p, hcp, d, hpd, hcycle⟩

/-- Two writings agree on a set of cells that references do not leave. -/
structure Agree (t t' : Writing) (cells : Set Coord) : Prop where
  closed : ∀ c ∈ cells, ∀ p, t.Refers c p → p ∈ cells
  eq : ∀ c ∈ cells, t c = t' c

namespace Agree

variable {cells : Set Coord}

theorem refers_iff (h : Agree t t' cells) (hc : c ∈ cells) :
    t.Refers c p ↔ t'.Refers c p := by
  rw [Refers, Refers, references_congr (h.eq c hc)]

theorem symm (h : Agree t t' cells) : Agree t' t cells where
  closed c hc p hcp := h.closed c hc p ((h.refers_iff hc).mpr hcp)
  eq c hc := (h.eq c hc).symm

theorem path (h : Agree t t' cells) (hc : c ∈ cells) {d : Coord}
    (hpath : Relation.ReflTransGen t.Refers c d) :
    d ∈ cells ∧ Relation.ReflTransGen t'.Refers c d := by
  induction hpath with
  | refl => exact ⟨hc, .refl⟩
  | tail _ hab ih =>
      obtain ⟨ha, hpath'⟩ := ih
      exact ⟨h.closed _ ha _ hab, hpath'.tail ((h.refers_iff ha).mp hab)⟩

theorem onCycle (h : Agree t t' cells) (hc : c ∈ cells) (hcycle : t.OnCycle c) :
    t'.OnCycle c := by
  obtain ⟨p, hcp, hpc⟩ := Relation.TransGen.head'_iff.mp hcycle
  have hp := h.closed c hc p hcp
  exact Relation.TransGen.head' ((h.refers_iff hc).mp hcp) (h.path hp hpc).2

theorem leadsToCycle (h : Agree t t' cells) (hc : c ∈ cells) (hleads : t.LeadsToCycle c) :
    t'.LeadsToCycle c := by
  obtain ⟨d, hpath, hcycle⟩ := hleads
  obtain ⟨hd, hpath'⟩ := h.path hc hpath
  exact ⟨d, hpath', h.onCycle hd hcycle⟩

theorem leadsToCycle_iff (h : Agree t t' cells) (hc : c ∈ cells) :
    t.LeadsToCycle c ↔ t'.LeadsToCycle c :=
  ⟨h.leadsToCycle hc, h.symm.leadsToCycle hc⟩

end Agree

end Writing

end LiveSheet
