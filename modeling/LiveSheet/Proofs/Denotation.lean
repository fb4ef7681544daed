import LiveSheet.Formula.Memo
import LiveSheet.Proofs.Writing
import LiveSheet.Value

/-! # What a cell should hold

The value that a cell denotes is told by the raw texts alone: no record, no graph and no order
of evaluation enters. A cell that leads to a cycle denotes nothing, and may hold any error. -/

namespace LiveSheet

namespace Formula

/-- The value of a formula when `look` finds the operands of its references. An undecodable
reference decides first, then the first reference that fails. -/
def valueBy (f : Formula) (look : Coord → Except CellError Float) : CellValue :=
  match f.referenceError? with
  | some e => .error e
  | none =>
      match f.references.mapM look with
      | .error e => .error e
      | .ok inputs =>
          match f.evalWith inputs with
          | .error e => .error e
          | .ok x => .number x

/-- What a reference counts for when the cells of the grid have the given values. -/
def operandIn (inGrid : Coord → Bool) (value : Coord → CellValue) (p : Coord) :
    Except CellError Float :=
  if inGrid p then (value p).operand else .error .invalidReference

theorem mapM_congr {look look' : Coord → Except CellError Float} {cells : List Coord}
    (h : ∀ p ∈ cells, look p = look' p) : cells.mapM look = cells.mapM look' := by
  induction cells with
  | nil => rfl
  | cons p rest ih =>
      rw [List.mapM_cons, List.mapM_cons, h p List.mem_cons_self,
        ih fun q hq => h q (List.mem_cons_of_mem _ hq)]

theorem valueBy_congr (f : Formula) {look look' : Coord → Except CellError Float}
    (h : ∀ p ∈ f.references, look p = look' p) : f.valueBy look = f.valueBy look' := by
  rw [valueBy, valueBy, mapM_congr h]

theorem mapM_of_error {look : Coord → Except CellError Float} {cells : List Coord} {p : Coord}
    (hp : p ∈ cells) {e : CellError} (he : look p = .error e) :
    ∃ e', cells.mapM look = .error e' := by
  induction cells with
  | nil => cases hp
  | cons q rest ih =>
      rw [List.mapM_cons]
      cases hq : look q with
      | error e' => exact ⟨e', rfl⟩
      | ok x =>
          rcases List.mem_cons.mp hp with rfl | hp
          · rw [hq] at he
            cases he
          · obtain ⟨e', hrest⟩ := ih hp
            exact ⟨e', by rw [hrest]; rfl⟩

/-- A reference that fails makes the formula an error. -/
theorem isError_valueBy (f : Formula) {look : Coord → Except CellError Float} {p : Coord}
    (hp : p ∈ f.references) {e : CellError} (he : look p = .error e) :
    (f.valueBy look).isError = true := by
  unfold valueBy
  split
  · rfl
  · obtain ⟨e', hmap⟩ := mapM_of_error hp he
    rw [hmap]
    rfl

theorem mapM_eq_error {look : Coord → Except CellError Float} {cells : List Coord}
    {e : CellError} (h : cells.mapM look = .error e) : ∃ p ∈ cells, look p = .error e := by
  induction cells with
  | nil => cases h
  | cons q rest ih =>
      rw [List.mapM_cons] at h
      cases hq : look q with
      | error e' =>
          rw [hq] at h
          cases h
          exact ⟨q, List.mem_cons_self, hq⟩
      | ok x =>
          rw [hq] at h
          cases hrest : rest.mapM look with
          | error e' =>
              rw [hrest] at h
              cases h
              obtain ⟨p, hp, he⟩ := ih hrest
              exact ⟨p, List.mem_cons_of_mem _ hp, he⟩
          | ok xs =>
              rw [hrest] at h
              cases h

end Formula

/-! ## Where circularity comes from -/

theorem Coord.ofToken_ne_circular (token : String) : ofToken token ≠ .error .circular := by
  unfold ofToken
  split <;> simp

theorem Segment.error?_ofToken (token : String) : (ofToken token).error? ≠ some .circular := by
  unfold ofToken
  cases htarget : Coord.ofToken token with
  | ok c => simp [error?]
  | error e =>
      intro hcircular
      cases hcircular
      exact Coord.ofToken_ne_circular token htarget

theorem Segment.error?_split (text : List Char) : (split text).1.error? ≠ some .circular := by
  unfold split
  simp only
  split
  · simp [error?]
  · split
    · simp [error?]
    · exact error?_ofToken _

theorem Segment.error?_of_mem_ofCharsOnto {done : List Segment} {text : List Char}
    (hdone : ∀ segment ∈ done, segment.error? ≠ some .circular) :
    ∀ segment ∈ ofCharsOnto done text, segment.error? ≠ some .circular := by
  fun_induction ofCharsOnto done text with
  | case1 done => simpa using hdone
  | case2 done c rest ih =>
      apply ih
      intro segment hsegment
      rcases List.mem_cons.mp hsegment with rfl | hsegment
      · exact error?_split _
      · exact hdone segment hsegment

namespace Formula

theorem error?_of_mem_segments (raw : String) :
    ∀ segment ∈ (ofRaw raw).segments, segment.error? ≠ some .circular :=
  Segment.error?_of_mem_ofCharsOnto (by simp)

theorem substituteOnto_ne_circular {segments : List Segment}
    (h : ∀ segment ∈ segments, segment.error? ≠ some .circular) (done : String)
    (values : List Float) : substituteOnto done segments values ≠ .error .circular := by
  fun_induction substituteOnto done segments values with
  | case1 => simp
  | case2 done values text rest ih =>
      exact ih fun segment hsegment => h segment (List.mem_cons_of_mem _ hsegment)
  | case3 done values token e rest =>
      intro hcircular
      cases hcircular
      exact h _ List.mem_cons_self rfl
  | case4 => simp
  | case5 done token c rest x values ih =>
      exact ih fun segment hsegment => h segment (List.mem_cons_of_mem _ hsegment)

theorem evalWith_ne_circular (raw : String) (inputs : List Float) :
    (ofRaw raw).evalWith inputs ≠ .error .circular := by
  unfold evalWith
  split
  · next e he =>
    intro hcircular
    cases hcircular
    exact substituteOnto_ne_circular (error?_of_mem_segments raw) "" inputs he
  · split
    · next e _ => cases e <;> simp [ExprError.toCellError]
    · simp

/-- A formula is circular only if one of its operands is. -/
theorem valueBy_ne_circular (raw : String) {look : Coord → Except CellError Float}
    (h : ∀ p ∈ (ofRaw raw).references, look p ≠ .error .circular) :
    (ofRaw raw).valueBy look ≠ .error .circular := by
  unfold valueBy
  split
  · next e he =>
    intro hcircular
    cases hcircular
    obtain ⟨segment, hsegment, herror⟩ := List.exists_of_findSome?_eq_some he
    exact error?_of_mem_segments raw segment hsegment herror
  · split
    · next e he =>
      intro hcircular
      cases hcircular
      obtain ⟨p, hp, hlook⟩ := mapM_eq_error he
      exact h p hp hlook
    · next inputs _ =>
      split
      · next e he =>
        intro hcircular
        cases hcircular
        exact evalWith_ne_circular raw inputs he
      · simp

end Formula

theorem CellValue.ofLiteral_ne_error (raw : String) (e : CellError) :
    ofLiteral raw ≠ .error e := by
  unfold ofLiteral
  split
  · simp
  · split
    · split <;> simp
    · simp

theorem CellValue.operand_of_isError {v : CellValue} (h : v.isError = true) :
    ∃ e, v.operand = .error e := by
  cases v with
  | error e => exact ⟨e, rfl⟩
  | _ => cases h

namespace Writing

/-- The value that the texts give to a cell: nothing is empty, a literal is what it reads as,
and a formula is computed from the values of the cells of the grid that it refers to. -/
inductive Denotes (t : Writing) (inGrid : Coord → Bool) : Coord → CellValue → Prop
  | blank {c : Coord} (hblank : t c = none) : Denotes t inGrid c .empty
  | literal {c : Coord} {raw : String} (hraw : t c = some raw)
      (hliteral : Formula.isFormula raw = false) : Denotes t inGrid c (.ofLiteral raw)
  | formula {c : Coord} {raw : String} {value : Coord → CellValue} (hraw : t c = some raw)
      (hformula : Formula.isFormula raw = true)
      (hvalue : ∀ p ∈ (Formula.ofRaw raw).references, inGrid p = true →
        Denotes t inGrid p (value p)) :
      Denotes t inGrid c ((Formula.ofRaw raw).valueBy (Formula.operandIn inGrid value))

variable {t t' : Writing} {inGrid : Coord → Bool} {c : Coord} {v v' : CellValue}

/-- A cell denotes at most one value. -/
theorem Denotes.unique (h : t.Denotes inGrid c v) (h' : t.Denotes inGrid c v') : v = v' := by
  induction h generalizing v' with
  | blank hblank =>
      cases h' with
      | blank => rfl
      | literal hraw => cases hblank.symm.trans hraw
      | formula hraw => cases hblank.symm.trans hraw
  | literal hraw hliteral =>
      cases h' with
      | blank hblank => cases hraw.symm.trans hblank
      | literal hraw' =>
          cases hraw.symm.trans hraw'
          rfl
      | formula hraw' hformula =>
          cases hraw.symm.trans hraw'
          cases hliteral.symm.trans hformula
  | formula hraw hformula _ ih =>
      cases h' with
      | blank hblank => cases hraw.symm.trans hblank
      | literal hraw' hliteral =>
          cases hraw.symm.trans hraw'
          cases hformula.symm.trans hliteral
      | formula hraw' _ hvalue' =>
          cases hraw.symm.trans hraw'
          refine Formula.valueBy_congr _ fun p hp => ?_
          unfold Formula.operandIn
          split
          · next hgrid => rw [ih p hp hgrid (hvalue' p hp hgrid)]
          · rfl

/-- No text denotes circularity. -/
theorem Denotes.ne_circular (h : t.Denotes inGrid c v) : v ≠ .error .circular := by
  induction h with
  | blank => simp
  | literal => exact CellValue.ofLiteral_ne_error _ _
  | @formula _ raw value _ _ _ ih =>
      refine Formula.valueBy_ne_circular raw fun p hp => ?_
      unfold Formula.operandIn
      split
      · next hgrid =>
        have hne := ih p hp hgrid
        cases hvalue : value p with
        | error e =>
            intro hcircular
            cases hcircular
            exact hne hvalue
        | _ => simp [CellValue.operand]
      · simp

theorem Agree.denotes {cells : Set Coord} (h : Agree t t' cells) (hc : c ∈ cells)
    (hv : t.Denotes inGrid c v) : t'.Denotes inGrid c v := by
  induction hv with
  | blank hblank => exact .blank ((h.eq _ hc).symm.trans hblank)
  | literal hraw hliteral => exact .literal ((h.eq _ hc).symm.trans hraw) hliteral
  | formula hraw hformula _ ih =>
      refine .formula ((h.eq _ hc).symm.trans hraw) hformula fun p hp hgrid => ih p hp hgrid ?_
      exact h.closed _ hc p ((Writing.refers_iff hraw hformula).mpr hp)

/-- What a cell may hold: the value that it denotes, or an error if it leads to a cycle. -/
structure Fits (t : Writing) (inGrid : Coord → Bool) (c : Coord) (v : CellValue) : Prop where
  denotes : ¬t.LeadsToCycle c → t.Denotes inGrid c v
  isError : t.LeadsToCycle c → v.isError = true

/-- A cell that holds circularity leads to a cycle. -/
theorem Fits.leadsToCycle (h : t.Fits inGrid c (.error .circular)) : t.LeadsToCycle c :=
  Classical.byContradiction fun hnot => (h.denotes hnot).ne_circular rfl

theorem Agree.fits {cells : Set Coord} (h : Agree t t' cells) (hc : c ∈ cells)
    (hv : t.Fits inGrid c v) : t'.Fits inGrid c v where
  denotes hnot := h.denotes hc (hv.denotes (mt (h.leadsToCycle hc) hnot))
  isError hleads := hv.isError (h.symm.leadsToCycle hc hleads)

theorem not_leadsToCycle_of_references (h : t.references c = []) : ¬t.LeadsToCycle c := by
  intro hleads
  obtain ⟨p, hcp, -⟩ := hleads.exists_refers
  rw [Refers, h] at hcp
  cases hcp

theorem Fits.blank (hblank : t c = none) : t.Fits inGrid c .empty where
  denotes _ := .blank hblank
  isError hleads := (not_leadsToCycle_of_references (references_of_blank hblank) hleads).elim

theorem Fits.literal {raw : String} (hraw : t c = some raw)
    (hliteral : Formula.isFormula raw = false) : t.Fits inGrid c (.ofLiteral raw) where
  denotes _ := .literal hraw hliteral
  isError hleads :=
    (not_leadsToCycle_of_references (references_of_literal hraw hliteral) hleads).elim

/-- A formula computed from references that fit fits itself. References from which the formula
can be reached again count as circular. -/
theorem Fits.formula {raw : String} (hraw : t c = some raw)
    (hformula : Formula.isFormula raw = true) (circular : Coord → Bool)
    (value : Coord → CellValue)
    (hcircular : ∀ p, t.Refers c p → circular p = true → Relation.ReflTransGen t.Refers p c)
    (hvalue : ∀ p, t.Refers c p → circular p = false → t.Fits inGrid p (value p)) :
    t.Fits inGrid c ((Formula.ofRaw raw).valueBy fun p =>
      if circular p then .error .circular else Formula.operandIn inGrid value p) where
  denotes hnot := by
    -- A reference that counts as circular would put the cell on a cycle.
    have hnone : ∀ p, t.Refers c p → circular p = false := by
      intro p hcp
      cases hp : circular p with
      | false => rfl
      | true => exact (hnot (OnCycle.leadsToCycle (.head' hcp (hcircular p hcp hp)))).elim
    have hlook : ∀ p ∈ (Formula.ofRaw raw).references,
        (if circular p then .error .circular else Formula.operandIn inGrid value p) =
          Formula.operandIn inGrid value p := by
      intro p hp
      rw [hnone p ((refers_iff hraw hformula).mpr hp)]
      rfl
    rw [Formula.valueBy_congr _ hlook]
    refine .formula hraw hformula fun p hp _ => ?_
    have hcp := (refers_iff hraw hformula).mpr hp
    exact (hvalue p hcp (hnone p hcp)).denotes fun hleads => hnot (.of_refers hcp hleads)
  isError hleads := by
    -- One of the references leads to the cycle as well, and fails whatever it counts as.
    obtain ⟨p, hcp, hp⟩ := hleads.exists_refers
    have hmem := (refers_iff hraw hformula).mp hcp
    cases hcirc : circular p with
    | true => exact Formula.isError_valueBy _ hmem (by rw [hcirc]; rfl)
    | false =>
        obtain ⟨e, he⟩ := CellValue.operand_of_isError ((hvalue p hcp hcirc).isError hp)
        by_cases hgrid : inGrid p = true
        · exact Formula.isError_valueBy _ hmem (e := e) (by
            simp only [hcirc, Formula.operandIn, hgrid, he, Bool.false_eq_true, if_false, if_true])
        · exact Formula.isError_valueBy _ hmem (e := .invalidReference) (by
            simp only [hcirc, Formula.operandIn, hgrid, Bool.false_eq_true, if_false])

end Writing

end LiveSheet
