import LiveSheet.Proofs.Sheet.Work
import Mathlib.Data.Set.Card

/-! # What is computed, and what is counted

A walk computes a cell only if it is not current, and the cell is current from then on. So no
cell is computed twice, whatever comes later, and the cells that were computed can be told from
what is current before and after. A cycle is counted when a formula is left that refers to an
active cell. If one is counted, the active cells between the two ends close a cycle, all of whose
cells are computed in the end. If none is, every computed cell refers to cells that were done
before it, and references that always lead back in time close no cycle. -/

namespace LiveSheet

namespace Sheet

variable {s s' s₁ s₂ : Sheet} {c d p : Coord} {cells cells₁ cells₂ : List Coord}

/-- From `s` to `s'` exactly the given cells are computed, each of them once. -/
structure Computes (s : Sheet) (cells : List Coord) (s' : Sheet) : Prop where
  nodup : cells.Nodup
  due : ∀ c ∈ cells, ¬s.Current c
  text?_eq : s'.text? = s.text?
  current_iff : ∀ c, s'.Current c ↔ s.Current c ∨ c ∈ cells
  get?_eq : ∀ c ∉ cells, s.store.contains c = true → s'.store.get? c = s.store.get? c
  precedents_iff : ∀ c ∉ cells, ∀ p,
    p ∈ s'.graph.precedents c ↔ p ∈ s.graph.precedents c

namespace Computes

theorem refl (s : Sheet) : Computes s [] s where
  nodup := List.nodup_nil
  due _ hc := (List.not_mem_nil hc).elim
  text?_eq := rfl
  current_iff _ := ⟨.inl, fun h => h.resolve_right List.not_mem_nil⟩
  get?_eq _ _ _ := rfl
  precedents_iff _ _ _ := .rfl

/-- The computed cells are those that have become current. -/
theorem mem_iff (h : Computes s cells s') (c : Coord) :
    c ∈ cells ↔ s'.Current c ∧ ¬s.Current c := by
  rw [h.current_iff]
  exact ⟨fun hc => ⟨.inr hc, h.due c hc⟩, fun ⟨hc, hnot⟩ => hc.resolve_left hnot⟩

theorem current (h : Computes s cells s') (hc : c ∈ cells) : s'.Current c :=
  (h.current_iff c).mpr (.inr hc)

theorem contains (h : Computes s cells s') (hc : s.store.contains c = true) :
    s'.store.contains c = true := by
  by_cases hcells : c ∈ cells
  · exact (h.current hcells).contains
  · obtain ⟨r, hr⟩ := (Store.contains_iff_get? _ _).mp hc
    exact (Store.contains_iff_get? _ _).mpr ⟨r, (h.get?_eq c hcells hc).trans hr⟩

/-- The number of cells that are computed is the number of computations. -/
theorem ncard_eq (h : Computes s cells s') :
    {c | c ∈ cells}.ncard = cells.length := by
  rw [← List.toFinset_card_of_nodup h.nodup, ← Set.ncard_coe_finset, List.coe_toFinset]

theorem value_eq (h : Computes s cells s') (hc : c ∉ cells)
    (hcontains : s.store.contains c = true) : s'.store.value c = s.store.value c := by
  rw [Store.value, Store.value, h.get?_eq c hc hcontains]

theorem trans (h₁ : Computes s cells₁ s₁) (h₂ : Computes s₁ cells₂ s₂) :
    Computes s (cells₁ ++ cells₂) s₂ where
  nodup := List.nodup_append.mpr ⟨h₁.nodup, h₂.nodup, fun a ha b hb hab =>
    h₂.due b hb (hab ▸ h₁.current ha)⟩
  due c hc hcurrent := (List.mem_append.mp hc).elim (fun hc => h₁.due c hc hcurrent)
    fun hc => h₂.due c hc ((h₁.current_iff c).mpr (.inl hcurrent))
  text?_eq := h₂.text?_eq.trans h₁.text?_eq
  current_iff c := by rw [h₂.current_iff, h₁.current_iff, List.mem_append, or_assoc]
  get?_eq c hc hcontains := by
    rw [List.mem_append, not_or] at hc
    rw [h₂.get?_eq c hc.2 (h₁.contains hcontains), h₁.get?_eq c hc.1 hcontains]
  precedents_iff c hc p := by
    rw [List.mem_append, not_or] at hc
    rw [h₂.precedents_iff c hc.2, h₁.precedents_iff c hc.1]

/-- What is computed later is not what has been computed, and is not blank. So no reference
leads there that is done. -/
theorem not_refers (h : Computes s cells s')
    (hdone : ∀ p, s.text?.Refers c p → s.Current p ∨ s.text? p = none) (hp : p ∈ cells) :
    ¬s.text?.Refers c p := by
  intro hcp
  rcases hdone p hcp with hcurrent | hblank
  · exact h.due p hp hcurrent
  · exact text?_ne_none_of_contains (h.current hp).contains (congrFun h.text?_eq p ▸ hblank)

/-- What one cell of either part refers to is done in the end, if it was done in its part. -/
theorem done_append (h₁ : Computes s cells₁ s₁) (h₂ : Computes s₁ cells₂ s₂)
    (hdone₁ : ∀ c ∈ cells₁, ∀ p, s.text?.Refers c p → s₁.Current p ∨ s.text? p = none)
    (hdone₂ : ∀ c ∈ cells₂, ∀ p, s₁.text?.Refers c p → s₂.Current p ∨ s₁.text? p = none) :
    ∀ c ∈ cells₁ ++ cells₂, ∀ p, s.text?.Refers c p → s₂.Current p ∨ s.text? p = none := by
  intro c hc p hcp
  rw [h₁.text?_eq] at hdone₂
  rcases List.mem_append.mp hc with hc | hc
  · exact (hdone₁ c hc p hcp).imp_left fun hp => (h₂.current_iff p).mpr (.inl hp)
  · exact hdone₂ c hc p hcp

/-- What the first part has computed refers to nothing that the second part computes, so a cycle
lies in one of the parts. -/
theorem cycleWithin_append_iff (h₁ : Computes s cells₁ s₁) (h₂ : Computes s₁ cells₂ s₂)
    (hdone₁ : ∀ c ∈ cells₁, ∀ p, s.text?.Refers c p → s₁.Current p ∨ s.text? p = none) :
    s.text?.CycleWithin {c | c ∈ cells₁ ++ cells₂} ↔
      s.text?.CycleWithin {c | c ∈ cells₁} ∨ s₁.text?.CycleWithin {c | c ∈ cells₂} := by
  have hcells : {c | c ∈ cells₁ ++ cells₂} = {c | c ∈ cells₁} ∪ {c | c ∈ cells₂} :=
    Set.ext fun c => List.mem_append
  have hlater : ∀ a ∈ {c | c ∈ cells₁}, ∀ b ∈ {c | c ∈ cells₂}, ¬s.text?.Refers a b := by
    intro a ha b hb
    rw [← h₁.text?_eq]
    refine h₂.not_refers (fun p hp => ?_) hb
    rw [h₁.text?_eq] at hp ⊢
    exact hdone₁ a ha p hp
  rw [hcells, Writing.cycleWithin_union_iff hlater, h₁.text?_eq]

end Computes

theorem computes_synthesize (s : Sheet) (c : Coord) : Computes s [] (s.synthesize c) where
  nodup := List.nodup_nil
  due _ hd := (List.not_mem_nil hd).elim
  text?_eq := (extends_synthesize s c).text?_eq
  current_iff d := by rw [current_synthesize_iff, or_iff_left List.not_mem_nil]
  get?_eq d _ hd := by
    rcases synthesize_cases s c with ⟨heq, -⟩ | ⟨raw, hnone, -, heq⟩
    · rw [heq]
    · have hdc : d ≠ c := by
        rintro rfl
        rw [(Store.contains_eq_false_iff _ _).mpr hnone] at hd
        cases hd
      exact get?_synthesize hdc
  precedents_iff d _ p := by
    rcases synthesize_cases s c with ⟨heq, -⟩ | ⟨raw, -, -, heq⟩ <;> rw [heq]

/-- Finishing a cell that is not current computes it. -/
theorem Finishes.computes {value : CellValue} (h : Finishes s c value s')
    (hc : s.store.contains c = true) (hdue : ¬s.Current c) : Computes s [c] s' where
  nodup := List.nodup_singleton c
  due _ hd := List.mem_singleton.mp hd ▸ hdue
  text?_eq := h.text?_eq
  current_iff d := by rw [h.current_iff hc, List.mem_singleton, or_comm]
  get?_eq d hd _ := by rw [h.get?_eq, if_neg (mt List.mem_singleton.mpr hd)]
  precedents_iff d hd p := by rw [h.precedents_iff, if_neg (mt List.mem_singleton.mpr hd)]

theorem cycles_complete {raw : String} (hraw : s.store.raw? c = some raw)
    (active : Std.HashSet Coord) : (s.complete active c).counters.cycles =
      s.counters.cycles +
        if (Formula.ofRaw raw).references.any active.contains then 1 else 0 := by
  have hcount : (s.complete active c).counters.cycles =
      (s.countCycle active (.ofRaw raw)).counters.cycles := by
    simp only [complete, hraw]
    rfl
  rw [hcount, countCycle]
  split
  · rfl
  · rfl

end Sheet

namespace Walk

open Sheet

variable {w w' w₁ w₂ : Walk} {c p : Coord} {rest : List Visit} {cells cells₁ cells₂ : List Coord}

/-- A part of a run computes the given cells. A cycle that it counts lies among these cells and
those that are active in the end. If it counts none, the computed cells refer to nothing that is
not done in the end, and not to each other in a circle. -/
structure Finds (w : Walk) (cells : List Coord) (w' : Walk) : Prop where
  computes : Computes w.sheet cells w'.sheet
  active : ∀ c ∈ w.active, c ∈ cells ∨ c ∈ w'.active
  cycles_le : w.sheet.counters.cycles ≤ w'.sheet.counters.cycles
  counted : w.sheet.counters.cycles < w'.sheet.counters.cycles →
    w.sheet.text?.CycleWithin {c | c ∈ cells ∨ c ∈ w'.active}
  done : w'.sheet.counters.cycles = w.sheet.counters.cycles → ∀ c ∈ cells, ∀ p,
    w.sheet.text?.Refers c p → w'.sheet.Current p ∨ w.sheet.text? p = none
  acyclic : w'.sheet.counters.cycles = w.sheet.counters.cycles →
    ¬w.sheet.text?.CycleWithin {c | c ∈ cells}

/-- A part of a run that computes no cell counts no cycle. -/
theorem Finds.of_computes_nil (h : Computes w.sheet [] w'.sheet)
    (hactive : ∀ c ∈ w.active, c ∈ w'.active)
    (hcounters : w'.sheet.counters = w.sheet.counters) : Finds w [] w' where
  computes := h
  active c hc := .inr (hactive c hc)
  cycles_le := Nat.le_of_eq (congrArg Counters.cycles hcounters.symm)
  counted hlt := by
    rw [hcounters] at hlt
    exact (Nat.lt_irrefl _ hlt).elim
  done _ c hc := (List.not_mem_nil hc).elim
  acyclic _ hcycle := by
    obtain ⟨c, hc, -⟩ := hcycle.exists_refers
    exact List.not_mem_nil hc

theorem Finds.refl (w : Walk) : Finds w [] w :=
  .of_computes_nil (.refl _) (fun _ hc => hc) rfl

theorem Finds.trans (h₁ : Finds w cells₁ w₁) (h₂ : Finds w₁ cells₂ w₂) :
    Finds w (cells₁ ++ cells₂) w₂ := by
  have hle₁ := h₁.cycles_le
  have hle₂ := h₂.cycles_le
  refine ⟨h₁.computes.trans h₂.computes, ?_, hle₁.trans hle₂, ?_, ?_, ?_⟩
  · intro c hc
    rw [List.mem_append, or_assoc]
    exact (h₁.active c hc).imp_right (h₂.active c)
  · intro hlt
    by_cases hfirst : w.sheet.counters.cycles < w₁.sheet.counters.cycles
    · refine (h₁.counted hfirst).mono fun c hc => ?_
      change c ∈ cells₁ ++ cells₂ ∨ c ∈ w₂.active
      rw [List.mem_append, or_assoc]
      exact hc.imp_right (h₂.active c)
    · have hcycle := h₂.counted (by omega)
      rw [h₁.computes.text?_eq] at hcycle
      exact hcycle.mono fun c hc => hc.imp_left (List.mem_append_right cells₁)
  · intro heq
    exact h₁.computes.done_append h₂.computes (h₁.done (by omega)) (h₂.done (by omega))
  · intro heq
    rw [h₁.computes.cycleWithin_append_iff h₂.computes (h₁.done (by omega)), not_or]
    exact ⟨h₁.acyclic (by omega), h₂.acyclic (by omega)⟩

/-! ## The steps -/

/-- What a step computes that leaves a formula. -/
theorem Orderly.computes_leave (h : w.Orderly []) (hstack : w.stack = .leave c :: rest) :
    Computes w.sheet [c] (w.sheet.complete w.active c) := by
  obtain ⟨raw, hraw, hformula⟩ := h.exists_formula hstack
  exact (finishes_complete hraw hformula w.active).computes (contains_of_raw? hraw)
    (h.unfinished c (h.mem_active hstack))

theorem computes_literal {raw : String} (hentry : w.entry c = .literal raw)
    (rest : List Visit) :
    Computes w.sheet [c] ({ w with stack := rest }.settleLiteral c raw).sheet := by
  obtain ⟨-, hraw, hliteral⟩ := entry_eq_literal hentry
  exact (finishes_literal hraw hliteral).computes (contains_of_raw? hraw)
    (entry_ne_settled (w := w) (c := c) (by simp [hentry])).2.1

/-- Leaving a formula counts a cycle if the formula refers to an active cell. -/
theorem Orderly.finds_leave (h : w.Orderly []) (hstack : w.stack = .leave c :: rest) :
    Finds w [c] ({ w with stack := rest }.leaveFormula c) := by
  have hpath : path w.stack = c :: path rest := by rw [hstack]; rfl
  have hmem : ∀ p, p ∈ w.active ↔ p ∈ path w.stack := h.mem_active_iff
  have hc := h.mem_active hstack
  obtain ⟨raw, hraw, hformula⟩ := h.exists_formula hstack
  have hrefers : ∀ p, w.sheet.text?.Refers c p ↔ p ∈ (Formula.ofRaw raw).references := fun p =>
    Writing.refers_iff (text?_of_raw? hraw) hformula
  have hcomputes := h.computes_leave hstack
  have hcycles := cycles_complete hraw w.active
  have hactive := Coord.mem_erase_iff w.active c
  -- If nothing is counted, the references are done, the cell itself not being among them.
  have hquiet : (w.sheet.complete w.active c).counters.cycles = w.sheet.counters.cycles →
      ∀ p, w.sheet.text?.Refers c p → p ∉ w.active := by
    intro heq p hcp hp
    have hany : (Formula.ofRaw raw).references.any w.active.contains = true :=
      List.any_eq_true.mpr ⟨p, (hrefers p).mp hcp, Std.HashSet.mem_iff_contains.mp hp⟩
    rw [hcycles, if_pos hany] at heq
    omega
  refine ⟨hcomputes, ?_, ?_, ?_, ?_, ?_⟩
  · intro p hp
    by_cases heq : p = c
    · exact .inl (List.mem_singleton.mpr heq)
    · exact .inr ((hactive p).mpr ⟨hp, heq⟩)
  · exact hcycles ▸ Nat.le_add_right _ _
  · intro hlt
    change _ < (w.sheet.complete w.active c).counters.cycles at hlt
    rw [hcycles] at hlt
    split at hlt
    · next hany =>
      obtain ⟨p, hp, hpactive⟩ := List.any_eq_true.mp hany
      have hpath' := (hmem p).mp (Std.HashSet.mem_iff_contains.mpr hpactive)
      have hback := h.chained.reaches_within (by rw [hpath]; rfl) p hpath'
      refine (Writing.CycleWithin.of_refers ⟨(hrefers p).mpr hp, (hmem c).mp hc, hpath'⟩
        hback).mono fun q hq => ?_
      by_cases heq : q = c
      · exact .inl (List.mem_singleton.mpr heq)
      · exact .inr ((hactive q).mpr ⟨(hmem q).mpr hq, heq⟩)
    · exact (Nat.lt_irrefl _ hlt).elim
  · intro heq d hd p hdp
    rw [List.mem_singleton.mp hd] at hdp
    refine ((h.ready hstack hdp).resolve_left (hquiet heq p hdp)).imp_left fun hp => ?_
    exact (hcomputes.current_iff p).mpr (.inl hp)
  · intro heq hcycle
    obtain ⟨a, ha, b, hb, hab⟩ := hcycle.exists_refers
    rw [List.mem_singleton.mp ha, List.mem_singleton.mp hb] at hab
    exact hquiet heq c hab hc

/-- A literal refers to nothing. -/
theorem not_refers_of_literal {raw : String} (hentry : w.entry c = .literal raw) (p : Coord) :
    ¬w.sheet.text?.Refers c p := by
  obtain ⟨-, hraw, hliteral⟩ := entry_eq_literal hentry
  rw [Writing.Refers, Writing.references_of_literal (text?_of_raw? hraw) hliteral]
  exact List.not_mem_nil

/-- A literal is computed when it is entered. -/
theorem finds_literal {raw : String} (hentry : w.entry c = .literal raw) (rest : List Visit) :
    Finds w [c] ({ w with stack := rest }.settleLiteral c raw) := by
  have hnone : ∀ a ∈ [c], ∀ p, ¬w.sheet.text?.Refers a p := fun a ha p =>
    List.mem_singleton.mp ha ▸ not_refers_of_literal hentry p
  refine ⟨computes_literal hentry rest, fun p hp => .inr hp, Nat.le_refl _,
    fun hlt => (Nat.lt_irrefl _ hlt).elim, fun _ d hd p hp => (hnone d hd p hp).elim, ?_⟩
  intro _ hcycle
  obtain ⟨a, ha, b, -, hab⟩ := hcycle.exists_refers
  exact hnone a ha b hab

theorem computes_schedule (w : Walk) (p : Coord) :
    Computes w.sheet [] (w.schedule p).sheet ∧ (w.schedule p).active = w.active := by
  rcases schedule_cases w p with ⟨heq, -⟩ | ⟨heq, -⟩ <;> rw [heq]
  · exact ⟨.refl _, rfl⟩
  · exact ⟨computes_synthesize w.sheet p, rfl⟩

theorem computes_foldl_schedule (todo : List Coord) (w : Walk) :
    Computes w.sheet [] (todo.foldl Walk.schedule w).sheet ∧
      (todo.foldl Walk.schedule w).active = w.active := by
  induction todo generalizing w with
  | nil => exact ⟨.refl _, rfl⟩
  | cons p rest ih =>
      obtain ⟨hcomputes, hactive⟩ := computes_schedule w p
      obtain ⟨hcomputes', hactive'⟩ := ih (w.schedule p)
      exact ⟨hcomputes.trans hcomputes', hactive'.trans hactive⟩

/-- Entering a formula computes nothing yet. -/
theorem computes_openFormula (w : Walk) (rest : List Visit) (c : Coord) (f : Formula) :
    Computes w.sheet [] ({ w with stack := rest }.openFormula c f).sheet ∧
      ({ w with stack := rest }.openFormula c f).active = w.active.insert c :=
  computes_foldl_schedule f.references ⟨w.sheet, w.active.insert c, .leave c :: rest⟩

theorem finds_openFormula (w : Walk) (rest : List Visit) (c : Coord) (f : Formula) :
    Finds w [] ({ w with stack := rest }.openFormula c f) := by
  obtain ⟨hcomputes, hactive⟩ := computes_openFormula w rest c f
  refine .of_computes_nil hcomputes (fun p hp => ?_)
    (counters_openFormula { w with stack := rest } c f)
  rw [hactive]
  exact Std.HashSet.mem_insert.mpr (.inr hp)

/-- A run finds what its steps find. -/
theorem Orderly.finds_run (h : w.Orderly []) (budget : Nat) :
    Finds w (work budget w) (run budget w) :=
  h.run_induction .refl .trans Orderly.finds_leave
    (fun _ _ _ => .of_computes_nil (.refl _) (fun _ hp => hp) rfl)
    (fun _ _ hentry => finds_literal hentry _) (fun _ _ _ => finds_openFormula _ _ _ _) budget

end Walk

end LiveSheet
