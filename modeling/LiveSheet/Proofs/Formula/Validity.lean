import LiveSheet.Proofs.Formula.Substitution

/-! # Validity and the values of references

Whether a formula is malformed depends on the values of its references in one way only. A number
is put into the text in parentheses, and with a sign if it is negative. Where a reference stands
in one parenthesis or sign less than is allowed, there is room for the parentheses, but not for
the sign. -/

namespace LiveSheet

variable {α : Type}

theorem BinOp.toCellError_of_apply {op : BinOp} {left right : Float} {e : ExprError}
    (h : op.apply left right = .error e) : e.toCellError ≠ .malformed := by
  unfold BinOp.apply at h
  split at h
  · cases h
    decide
  · split at h
    · cases h
    · cases h
      decide

namespace Expr

mutual

/-- Which of the numbers that stand in exactly `depth` parentheses and signs are negative. -/
def signsAt : Expr → (depth : Nat) → List Bool
  | .number x, 0 => [Decimal.Style.isNegative x]
  | .number _, _ + 1 => []
  | .group _, 0 => []
  | .group inner, depth + 1 => signsAt inner depth
  | .signed _ _, 0 => []
  | .signed _ operand, depth + 1 => signsAt operand depth
  | .chain first rest, depth => signsAt first depth ++ chainSignsAt rest depth

def chainSignsAt : List (BinOp × Expr) → (depth : Nat) → List Bool
  | [], _ => []
  | (_, operand) :: rest, depth => signsAt operand depth ++ chainSignsAt rest depth

end

mutual

/-- An expression that was read is not malformed any more, whatever its value fails with. -/
theorem toCellError_of_eval : ∀ {e : Expr} {error : ExprError}, e.eval = .error error →
    error.toCellError ≠ .malformed
  | .number _, _, h => by cases h
  | .group inner, _, h => toCellError_of_eval (e := inner) h
  | .signed sign operand, _, h => by
      unfold eval at h
      split at h
      · cases h
      · next herror =>
        cases h
        exact toCellError_of_eval herror
  | .chain first rest, _, h => by
      unfold eval at h
      split at h
      · exact toCellError_of_evalChain h
      · next herror =>
        cases h
        exact toCellError_of_eval herror

theorem toCellError_of_evalChain : ∀ {parts : List (BinOp × Expr)} {left : Float}
    {error : ExprError}, evalChain left parts = .error error → error.toCellError ≠ .malformed
  | [], _, _, h => by cases h
  | (op, operand) :: rest, left, _, h => by
      unfold evalChain at h
      split at h
      · next herror =>
        cases h
        exact toCellError_of_eval herror
      · split at h
        · next herror =>
          cases h
          exact BinOp.toCellError_of_apply herror
        · exact toCellError_of_evalChain h

end

end Expr

namespace OpenExpr

open Formula

variable (f g : α → Float)

mutual

theorem length_signsAt_fill : ∀ (e : OpenExpr α) (depth : Nat),
    ((e.fill (atom.comap f)).signsAt depth).length =
      ((e.fill (atom.comap g)).signsAt depth).length
  | number _, _ => by simp only [fill]
  | operand _, 0 => rfl
  | operand _, _ + 1 => rfl
  | chain first rest, depth => by
      simp only [fill, Expr.signsAt, List.length_append, length_signsAt_fill first depth,
        length_chainSignsAt_fill rest depth]
  | signed _ _, 0 => by simp only [fill, Expr.signsAt]
  | signed _ e, depth + 1 => by simp only [fill, Expr.signsAt, length_signsAt_fill e depth]
  | group _, 0 => by simp only [fill, Expr.signsAt]
  | group e, depth + 1 => by simp only [fill, Expr.signsAt, length_signsAt_fill e depth]

theorem length_chainSignsAt_fill : ∀ (parts : List (BinOp × OpenExpr α)) (depth : Nat),
    (Expr.chainSignsAt (fillChain (atom.comap f) parts) depth).length =
      (Expr.chainSignsAt (fillChain (atom.comap g) parts) depth).length
  | [], _ => rfl
  | (_, e) :: parts, depth => by
      simp only [fillChain, Expr.chainSignsAt, List.length_append, length_signsAt_fill e depth,
        length_chainSignsAt_fill parts depth]

end

variable {f g}

mutual

/-- Only signs next to the limit matter for what is within it. -/
theorem nesting_written_iff : ∀ (e : OpenExpr α) (limit : Nat),
    (∀ depth, limit = depth + 1 →
      (e.fill (atom.comap f)).signsAt depth = (e.fill (atom.comap g)).signsAt depth) →
    ((e.fill (written.comap f)).nesting ≤ limit ↔ (e.fill (written.comap g)).nesting ≤ limit)
  -- The fillings are rewritten away first, so that they are never compared with each other.
  | number _, _, _ => by rw [fill, fill]
  | operand a, limit, h => by
      rw [fill, fill] at h ⊢
      rw [Filling.comap, Filling.comap, nesting_written, nesting_written]
      match limit with
      | 0 => split <;> split <;> decide
      | 1 =>
          have hsign := h 0 rfl
          simp only [Filling.comap, atom, Expr.signsAt, List.cons.injEq, and_true] at hsign
          rw [hsign]
      | _ + 2 => split <;> split <;> simp
  | chain first rest, limit, h => by
      rw [fill, fill] at h ⊢
      simp only [Expr.signsAt] at h
      have hparts := fun depth hdepth => List.append_inj (h depth hdepth)
        (length_signsAt_fill f g first depth)
      have hfirst := nesting_written_iff first limit fun depth hdepth => (hparts depth hdepth).1
      have hrest := chainNesting_written_iff rest limit fun depth hdepth =>
        (hparts depth hdepth).2
      rw [Expr.nesting, Expr.nesting, Nat.max_le, Nat.max_le, hfirst, hrest]
  | signed _ e, 0, _ => by
      rw [fill, fill, Expr.nesting_signed, Expr.nesting_signed]
      exact iff_of_false (Nat.not_succ_le_zero _) (Nat.not_succ_le_zero _)
  | signed _ e, limit + 1, h => by
      rw [fill, fill] at h ⊢
      rw [Expr.nesting_signed, Expr.nesting_signed, Nat.add_le_add_iff_right,
        Nat.add_le_add_iff_right]
      refine nesting_written_iff e limit fun depth hdepth => ?_
      have hsigns := h (depth + 1) (congrArg (· + 1) hdepth)
      rwa [Expr.signsAt, Expr.signsAt] at hsigns
  | group e, 0, _ => by
      rw [fill, fill, Expr.nesting_group, Expr.nesting_group]
      exact iff_of_false (Nat.not_succ_le_zero _) (Nat.not_succ_le_zero _)
  | group e, limit + 1, h => by
      rw [fill, fill] at h ⊢
      rw [Expr.nesting_group, Expr.nesting_group, Nat.add_le_add_iff_right,
        Nat.add_le_add_iff_right]
      refine nesting_written_iff e limit fun depth hdepth => ?_
      have hsigns := h (depth + 1) (congrArg (· + 1) hdepth)
      rwa [Expr.signsAt, Expr.signsAt] at hsigns

theorem chainNesting_written_iff : ∀ (parts : List (BinOp × OpenExpr α)) (limit : Nat),
    (∀ depth, limit = depth + 1 →
      Expr.chainSignsAt (fillChain (atom.comap f) parts) depth =
        Expr.chainSignsAt (fillChain (atom.comap g) parts) depth) →
    (Expr.chainNesting (fillChain (written.comap f) parts) ≤ limit ↔
      Expr.chainNesting (fillChain (written.comap g) parts) ≤ limit)
  | [], _, _ => by rw [fillChain, fillChain]
  | (_, e) :: parts, limit, h => by
      rw [fillChain, fillChain] at h ⊢
      simp only [Expr.chainSignsAt] at h
      have hparts := fun depth hdepth => List.append_inj (h depth hdepth)
        (length_signsAt_fill f g e depth)
      have he := nesting_written_iff e limit fun depth hdepth => (hparts depth hdepth).1
      have hrest := chainNesting_written_iff parts limit fun depth hdepth =>
        (hparts depth hdepth).2
      rw [Expr.chainNesting, Expr.chainNesting, Nat.max_le, Nat.max_le, he, hrest]

end

/-- Where a number by itself is too deep, it is so whatever it is, and in parentheses too. -/
theorem nesting_written_iff_of_signs (e : OpenExpr α) (depth : Nat)
    (h : (e.fill (atom.comap f)).nesting ≤ depth + 1 →
      (e.fill (atom.comap g)).nesting ≤ depth + 1 →
      (e.fill (atom.comap f)).signsAt depth = (e.fill (atom.comap g)).signsAt depth) :
    (e.fill (written.comap f)).nesting ≤ depth + 1 ↔
      (e.fill (written.comap g)).nesting ≤ depth + 1 := by
  have hatoms := fun f g : α → Float =>
    e.nesting_fill_le (atom.comap f) (atom.comap g) 0 fun _ => Nat.zero_le _
  have hdeeper := fun f : α → Float =>
    e.nesting_fill_le (atom.comap f) (written.comap f) 0 fun _ => Nat.zero_le _
  by_cases hf : (e.fill (atom.comap f)).nesting ≤ depth + 1
  · have hsigns := h hf ((hatoms g f).trans hf)
    refine e.nesting_written_iff (depth + 1) fun depth' hdepth => ?_
    rw [← Nat.succ.inj hdepth]
    exact hsigns
  · have hg := hatoms f g
    have hwritten := hdeeper f
    have hwritten' := hdeeper g
    exact iff_of_false (by omega) (by omega)

end OpenExpr

namespace Formula

variable {raw : String} {values xs ys : List Float}

theorem valueOf_eq_malformed {reading : Except CellError Expr} :
    valueOf reading = .error .malformed ↔ reading = .error .malformed := by
  cases reading with
  | error e =>
      change Except.error e = _ ↔ _
      rw [Except.error.injEq, Except.error.injEq]
  | ok e =>
      refine iff_of_false (fun h => ?_) (by rintro ⟨⟩)
      change e.eval.mapError ExprError.toCellError = _ at h
      cases heval : e.eval with
      | ok x => rw [heval] at h; cases h
      | error error =>
          rw [heval] at h
          exact Expr.toCellError_of_eval heval (Except.error.inj h)

/-- A formula is malformed for one list of values if and only if it is for another, provided that
the numbers in exactly 255 parentheses and signs have the same signs. -/
theorem malformed_iff_malformed (herror : (ofRaw raw).referenceError? = none)
    (hxs : xs.length = (ofRaw raw).references.length)
    (hys : ys.length = (ofRaw raw).references.length)
    (hfxs : ∀ x ∈ xs, x.isFinite = true) (hfys : ∀ y ∈ ys, y.isFinite = true)
    (hsigns : ∀ e e', (ofRaw raw).reading xs = .ok e → (ofRaw raw).reading ys = .ok e' →
      e.signsAt 255 = e'.signsAt 255) :
    (ofRaw raw).evalWith xs = .error .malformed ↔ (ofRaw raw).evalWith ys = .error .malformed := by
  rw [evalWith_eq herror hxs hfxs, evalWith_eq herror hys hfys, valueOf_eq_malformed,
    valueOf_eq_malformed]
  -- Both lists fill in one expression, whose references are left open for the pairs of values.
  have hfst : (xs.zip ys).map Prod.fst = xs := List.map_fst_zip (by omega)
  have hsnd : (xs.zip ys).map Prod.snd = ys := List.map_snd_zip (by omega)
  have hreadx : ∀ σ : Filling Float,
      (ofRaw raw).readWith σ xs = (ofRaw raw).readWith (σ.comap Prod.fst) (xs.zip ys) := by
    intro σ
    rw [← readWith_map, hfst]
  have hready : ∀ σ : Filling Float,
      (ofRaw raw).readWith σ ys = (ofRaw raw).readWith (σ.comap Prod.snd) (xs.zip ys) := by
    intro σ
    rw [← readWith_map, hsnd]
  rw [reading, reading, hreadx, hready] at hsigns
  rw [hreadx, hready]
  rcases readWith_cases (ofRaw raw) (xs.zip ys) with ⟨error, hfail⟩ | ⟨e, he⟩
  · rw [hfail, hfail]
  have hfits : (e.fill (written.comap Prod.fst)).nesting ≤ Expr.maxNesting ↔
      (e.fill (written.comap Prod.snd)).nesting ≤ Expr.maxNesting :=
    e.nesting_written_iff_of_signs 255 fun hx hy =>
      hsigns _ _ ((he _).trans (if_pos hx)) ((he _).trans (if_pos hy))
  rw [he, he]
  by_cases hfst : (e.fill (written.comap Prod.fst)).nesting ≤ Expr.maxNesting
  · rw [if_pos hfst, if_pos (hfits.mp hfst)]
    exact iff_of_false (by rintro ⟨⟩) (by rintro ⟨⟩)
  · rw [if_neg hfst, if_neg fun hsnd => hfst (hfits.mpr hsnd)]

/-! ## A sign that is too much -/

/-- Behind how many signs a formula with one reference is malformed depends on its value. -/
theorem evalWith_negated_eq_malformed {x : Float} (hx : x.isFinite = true) (k : Nat) :
    (ofRaw (negated k)).evalWith [x] = .error .malformed ↔
      256 < (if Decimal.Style.isNegative x then 2 else 1) + (k + 1) := by
  have hlength : [x].length = (ofRaw (negated k)).references.length := by
    rw [references_negated]
    rfl
  rw [evalWith_eq (referenceError?_negated k) hlength (List.forall_mem_singleton.mpr hx),
    valueOf_eq_malformed, readWith_negated, nesting_written]
  generalize (if Decimal.Style.isNegative x then 2 else 1) + (k + 1) = nesting
  split
  · next hfits => exact iff_of_false (by rintro ⟨⟩) (Nat.not_lt.mpr hfits)
  · next hdeep => exact iff_of_true rfl (Nat.not_le.mp hdeep)

theorem signsAt_behindSigns (e : Expr) (depth k : Nat) :
    (behindSigns k e).signsAt (depth + k) = e.signsAt depth := by
  induction k with
  | zero => rfl
  | succ k ih => rw [behindSigns, ← Nat.add_assoc, Expr.signsAt, ih]

/-- Behind 254 signs there is room for both values. -/
theorem malformed_iff_malformed_of_negated :
    (ofRaw (negated 253)).evalWith [positiveOperand] = .error .malformed ↔
      (ofRaw (negated 253)).evalWith [negativeOperand] = .error .malformed := by
  refine malformed_iff_malformed (referenceError?_negated 253) ?_ ?_
    (List.forall_mem_singleton.mpr isFinite_positiveOperand)
    (List.forall_mem_singleton.mpr isFinite_negativeOperand) ?_
  · rw [references_negated]
    rfl
  · rw [references_negated]
    rfl
  · intro e e' he he'
    rw [reading, readWith_negated, if_pos (by decide)] at he he'
    cases he
    cases he'
    exact (signsAt_behindSigns (atom.expr positiveOperand) 1 (253 + 1)).trans
      (signsAt_behindSigns (atom.expr negativeOperand) 1 (253 + 1)).symm

/-- Behind 255 signs there is room for one, but not for minus one. -/
theorem not_forall_malformed_iff_malformed : ¬∀ (raw : String) (xs ys : List Float),
    (ofRaw raw).referenceError? = none → xs.length = (ofRaw raw).references.length →
    ys.length = (ofRaw raw).references.length → (∀ x ∈ xs, x.isFinite = true) →
    (∀ y ∈ ys, y.isFinite = true) →
    ((ofRaw raw).evalWith xs = .error .malformed ↔
      (ofRaw raw).evalWith ys = .error .malformed) := by
  intro h
  have hiff := h (negated 254) [positiveOperand] [negativeOperand] (referenceError?_negated 254)
    (by rw [references_negated]; rfl) (by rw [references_negated]; rfl)
    (List.forall_mem_singleton.mpr isFinite_positiveOperand)
    (List.forall_mem_singleton.mpr isFinite_negativeOperand)
  rw [evalWith_negated_eq_malformed isFinite_positiveOperand,
    evalWith_negated_eq_malformed isFinite_negativeOperand] at hiff
  revert hiff
  decide +kernel

end Formula

end LiveSheet
