import LiveSheet.Proofs.Sheet.Settling
import LiveSheet.Proofs.Writing.Cycles

/-! # The walk over precedents

What holds between two steps of a walk. The active cells are the ones to be left, and from the
bottom of the stack to its top each of them refers to the next, so a reference to an active
cell closes a cycle. When a formula is left, whatever it refers to is active, current or
without text: its precedents were put on the stack above it when it was entered, and none of
them leaves the stack without being current. -/

namespace LiveSheet

/-- The cell that a step is about. -/
def Visit.cell : Visit → Coord
  | enter c => c
  | leave c => c

namespace Walk

open Sheet

/-- The cells that have been entered and not left, the last one entered first. -/
def path : List Visit → List Coord
  | [] => []
  | .enter _ :: rest => path rest
  | .leave c :: rest => c :: path rest

/-- Every step is there because the formula entered last before it refers to its cell. -/
def Chained (t : Writing) : List Visit → Prop
  | [] => True
  | v :: rest => (∀ c ∈ (path rest).head?, t.Refers c v.cell) ∧ Chained t rest

/-- When a formula comes to be left, all that it refers to is ready, if what is entered above
it is ready by then. -/
def Awaits (t : Writing) : (ready : Coord → Prop) → List Visit → Prop
  | _, [] => True
  | ready, .enter p :: rest => Awaits t (fun q => q = p ∨ ready q) rest
  | ready, .leave c :: rest => (∀ p, t.Refers c p → ready p) ∧ Awaits t ready rest

/-- The walk has still to take a step about the cell. -/
def Busy (w : Walk) (c : Coord) : Prop :=
  .enter c ∈ w.stack ∨ .leave c ∈ w.stack

/-- The cell is no obstacle for a formula that refers to it. -/
def Ready (w : Walk) (c : Coord) : Prop :=
  c ∈ w.active ∨ w.sheet.Current c ∨ w.sheet.text? c = none

/-- What holds between two steps, whatever values the sheet has. Within a step that enters a
formula, the cells of `todo` have still to be put on the stack. -/
structure Orderly (w : Walk) (todo : List Coord) : Prop where
  mem_active_iff : ∀ c, c ∈ w.active ↔ c ∈ path w.stack
  nodup : (path w.stack).Nodup
  chained : Chained w.sheet.text? w.stack
  awaits : Awaits w.sheet.text? (fun p => p ∈ todo ∨ w.Ready p) w.stack
  recorded : ∀ c, w.Busy c → w.sheet.store.contains c = true
  formula : ∀ c ∈ path w.stack, ∃ raw, w.sheet.store.raw? c = some raw ∧
    Formula.isFormula raw = true
  unfinished : ∀ c ∈ w.active, ¬w.sheet.Current c

/-- What holds of the sheet between two steps, if it was sound in the beginning. -/
structure Faithful (w : Walk) : Prop where
  sound : w.sheet.Sound w.Busy
  known : ∀ c, w.sheet.store.contains c = true →
    c ∈ w.sheet.stale ∨ w.Busy c ∨ w.sheet.Current c

/-- What holds between two steps of a walk through a sound sheet. -/
structure Inv (w : Walk) (todo : List Coord) : Prop extends Orderly w todo, Faithful w

/-! ## The stack -/

theorem mem_path_iff (stack : List Visit) (c : Coord) : c ∈ path stack ↔ .leave c ∈ stack := by
  induction stack with
  | nil => simp [path]
  | cons v rest ih => cases v <;> simp [path, ih]

theorem path_of_enter {w : Walk} {c : Coord} {rest : List Visit}
    (hstack : w.stack = .enter c :: rest) : path w.stack = path rest := by
  rw [hstack]
  rfl

theorem path_sublist (v : Visit) (rest : List Visit) : (path rest).Sublist (path (v :: rest)) := by
  cases v with
  | enter c => exact List.Sublist.refl _
  | leave c => exact List.sublist_cons_self c _

theorem mem_path_cons {v : Visit} {rest : List Visit} {c : Coord} (h : c ∈ path (v :: rest)) :
    c = v.cell ∨ c ∈ path rest := by
  cases v with
  | enter p => exact .inr h
  | leave p => exact List.mem_cons.mp h

/-- All active cells lead to the one entered last, past active cells only. -/
theorem Chained.reaches_within {t : Writing} {stack : List Visit} (h : Chained t stack)
    {last : Coord} (hlast : (path stack).head? = some last) :
    ∀ c ∈ path stack, Relation.ReflTransGen (t.RefersWithin {d | d ∈ path stack}) c last := by
  induction stack generalizing last with
  | nil => cases hlast
  | cons v rest ih =>
      cases v with
      | enter p => exact ih h.2 hlast
      | leave d =>
          cases hlast
          intro c hc
          rcases List.mem_cons.mp hc with rfl | hc
          · exact .refl
          · cases hhead : (path rest).head? with
            | none =>
                rw [List.head?_eq_none_iff] at hhead
                rw [hhead] at hc
                cases hc
            | some previous =>
                have hlonger : ∀ a b, t.RefersWithin {e | e ∈ path rest} a b →
                    t.RefersWithin {e | e ∈ last :: path rest} a b := fun a b ⟨hab, ha, hb⟩ =>
                  ⟨hab, List.mem_cons_of_mem last ha, List.mem_cons_of_mem last hb⟩
                exact ((ih h.2 hhead c hc).lift id hlonger).tail ⟨h.1 previous hhead,
                  List.mem_cons_of_mem last (List.mem_of_head? hhead), List.mem_cons_self⟩

theorem Chained.reaches {t : Writing} {stack : List Visit} (h : Chained t stack) {last : Coord}
    (hlast : (path stack).head? = some last) :
    ∀ c ∈ path stack, Relation.ReflTransGen t.Refers c last :=
  fun c hc => (h.reaches_within hlast c hc).lift id fun _ _ hab => hab.1

theorem Awaits.mono {t : Writing} {ready ready' : Coord → Prop} {stack : List Visit}
    (h : Awaits t ready stack) (hready : ∀ p, ready p → ready' p) : Awaits t ready' stack := by
  induction stack generalizing ready ready' with
  | nil => trivial
  | cons v rest ih =>
      cases v with
      | enter p => exact ih h fun q hq => hq.imp_right (hready q)
      | leave c => exact ⟨fun p hp => hready p (h.1 p hp), ih h.2 hready⟩

/-- Below a step its cell may be taken to be ready. -/
theorem Awaits.tail {t : Writing} {ready : Coord → Prop} {v : Visit} {rest : List Visit}
    (h : Awaits t ready (v :: rest)) : Awaits t (fun q => q = v.cell ∨ ready q) rest := by
  cases v with
  | enter p => exact h
  | leave c => exact h.2.mono fun _ => .inr

theorem busy_iff {w : Walk} {v : Visit} {rest : List Visit} (hstack : w.stack = v :: rest)
    (c : Coord) : w.Busy c ↔ c = v.cell ∨ .enter c ∈ rest ∨ .leave c ∈ rest := by
  unfold Busy
  rw [hstack, List.mem_cons, List.mem_cons]
  cases v with
  | enter p => simp [Visit.cell, or_assoc]
  | leave p => simp [Visit.cell, or_left_comm]

/-- Nothing is left to be taken up when the stack is empty. -/
theorem not_busy_of_nil {w : Walk} (hstack : w.stack = []) (c : Coord) : ¬w.Busy c := by
  unfold Busy
  simp [hstack]

theorem Orderly.not_mem_active_of_nil {w : Walk} (h : w.Orderly []) (hstack : w.stack = [])
    (c : Coord) : c ∉ w.active := by
  rw [h.mem_active_iff, hstack]
  exact List.not_mem_nil

/-- Putting steps on top of the stack leaves those below. -/
theorem Busy.push {w : Walk} {c : Coord} (h : w.Busy c) (s : Sheet)
    (active : Std.HashSet Coord) (v : Visit) : Busy ⟨s, active, v :: w.stack⟩ c :=
  (busy_iff rfl c).mpr (.inr h)

/-- A cell that is entered is to be left instead. -/
theorem Busy.activate {w : Walk} {c p : Coord} {rest : List Visit}
    (hstack : w.stack = .enter c :: rest) (h : w.Busy p) (active : Std.HashSet Coord) :
    Busy ⟨w.sheet, active, .leave c :: rest⟩ p :=
  (busy_iff (v := .leave c) rfl p).mpr ((busy_iff hstack p).mp h)

/-! ## Progress -/

/-- What every step of a walk, and so every part of a run, brings about. -/
structure Advances (w w' : Walk) : Prop where
  toExtends : Extends w.sheet w'.sheet
  current : ∀ c, w.sheet.Current c → w'.sheet.Current c
  active : ∀ c ∈ w.active, c ∈ w'.active ∨ w'.sheet.Current c
  busy : ∀ c, w.Busy c → w'.Busy c ∨ w'.sheet.Current c
  written : ∀ c, w'.sheet.store.contains c = true → w.sheet.store.contains c = true ∨
    w.sheet.inBounds c = true ∧ (w'.Busy c ∨ w'.sheet.Current c)

theorem Advances.refl (w : Walk) : Advances w w :=
  ⟨Extends.refl _, fun _ h => h, fun _ h => .inl h, fun _ h => .inl h, fun _ h => .inl h⟩

theorem Advances.trans {w₁ w₂ w₃ : Walk} (h₁ : Advances w₁ w₂) (h₂ : Advances w₂ w₃) :
    Advances w₁ w₃ where
  toExtends := h₁.toExtends.trans h₂.toExtends
  current c hc := h₂.current c (h₁.current c hc)
  active c hc := (h₁.active c hc).elim (h₂.active c) fun hcurrent => .inr (h₂.current c hcurrent)
  busy c hc := (h₁.busy c hc).elim (h₂.busy c) fun hcurrent => .inr (h₂.current c hcurrent)
  written c hc := by
    rcases h₂.written c hc with hc | ⟨hgrid, hc⟩
    · refine (h₁.written c hc).imp_right fun ⟨hgrid, hc⟩ => ⟨hgrid, ?_⟩
      exact hc.elim (h₂.busy c) fun hcurrent => .inr (h₂.current c hcurrent)
    · rw [inBounds_congr h₁.toExtends.settings_eq] at hgrid
      exact .inr ⟨hgrid, hc⟩

/-- What is ready stays ready. -/
theorem Advances.ready {w w' : Walk} (h : Advances w w') {p : Coord} (hp : w.Ready p) :
    w'.Ready p := by
  rcases hp with hactive | hcurrent | hblank
  · exact (h.active p hactive).imp_right .inl
  · exact .inr (.inl (h.current p hcurrent))
  · exact .inr (.inr ((congrFun h.toExtends.text?_eq p).trans hblank))

/-- In a sound sheet nothing that has been built is lost either. -/
structure Progress (w w' : Walk) : Prop extends Advances w w' where
  built : ∀ c, w.sheet.Built c ∨ w.Busy c → w'.sheet.Built c ∨ w'.Busy c

theorem Progress.refl (w : Walk) : Progress w w :=
  ⟨.refl w, fun _ h => h⟩

theorem Progress.trans {w₁ w₂ w₃ : Walk} (h₁ : Progress w₁ w₂) (h₂ : Progress w₂ w₃) :
    Progress w₁ w₃ :=
  ⟨h₁.toAdvances.trans h₂.toAdvances, fun c hc => h₂.built c (h₁.built c hc)⟩

/-! ## Entering a formula -/

/-- Scheduling does nothing to a cell that is no obstacle, and puts any other cell on the
stack, with a record. -/
theorem schedule_cases (w : Walk) (p : Coord) :
    (w.schedule p = w ∧ w.Ready p) ∨
      (w.schedule p = { w with sheet := w.sheet.synthesize p, stack := .enter p :: w.stack } ∧
        (w.sheet.synthesize p).store.contains p = true ∧ ¬w.sheet.Current p) := by
  unfold schedule
  split
  · next hactive => exact .inl ⟨rfl, .inl (Std.HashSet.mem_iff_contains.mpr hactive)⟩
  · simp only
    split
    · next hrefresh =>
      obtain ⟨hcontains, hcurrent⟩ := needsRefresh_eq_true_iff.mp hrefresh
      exact .inr ⟨rfl, hcontains, mt (current_synthesize_iff w.sheet p p).mpr hcurrent⟩
    · next hrefresh =>
      left
      rcases synthesize_cases w.sheet p with ⟨heq, htext⟩ | ⟨raw, hnone, -, heq⟩
      · rw [heq] at hrefresh ⊢
        refine ⟨rfl, .inr ?_⟩
        rcases needsRefresh_eq_false_iff.mp (Bool.not_eq_true _ ▸ hrefresh) with hnone | hcur
        · rw [(Store.contains_eq_false_iff _ _).mpr hnone] at htext
          exact .inr (htext.resolve_left Bool.false_ne_true)
        · exact .inl hcur
      · -- Text that has just been written has never been computed.
        refine (hrefresh (needsRefresh_eq_true_iff.mpr ⟨?_, ?_⟩)).elim
        · rw [heq]
          exact Store.contains_setRaw_self _ p raw
        · rw [current_synthesize_iff]
          exact not_current_of_get?_eq_none hnone

theorem path_schedule (w : Walk) (p : Coord) : path (w.schedule p).stack = path w.stack := by
  rcases schedule_cases w p with ⟨heq, -⟩ | ⟨heq, -⟩ <;> rw [heq]
  rfl

theorem text?_schedule (w : Walk) (p : Coord) :
    (w.schedule p).sheet.text? = w.sheet.text? := by
  rcases schedule_cases w p with ⟨heq, -⟩ | ⟨heq, -⟩ <;> rw [heq]
  exact (extends_synthesize w.sheet p).text?_eq

theorem Advances.schedule (w : Walk) (p : Coord) : Advances w (w.schedule p) := by
  rcases schedule_cases w p with ⟨heq, -⟩ | ⟨heq, -⟩
  · rw [heq]
    exact Advances.refl w
  · rw [heq]
    refine ⟨extends_synthesize w.sheet p, ?_, fun _ hc => .inl hc,
      fun c hc => .inl (hc.push _ _ _), fun c hc => ?_⟩
    · exact fun c hc => (current_synthesize_iff w.sheet p c).mpr hc
    · refine (contains_or_inBounds_of_synthesize hc).imp_right fun ⟨hcp, hgrid⟩ => ?_
      exact ⟨hcp ▸ hgrid, .inl ((busy_iff (v := .enter p) rfl c).mpr (.inl hcp))⟩

theorem Progress.schedule (w : Walk) (p : Coord) : Progress w (w.schedule p) := by
  refine ⟨.schedule w p, ?_⟩
  rcases schedule_cases w p with ⟨heq, -⟩ | ⟨heq, -⟩ <;> rw [heq]
  · exact fun _ hc => hc
  · rintro c (hc | hc)
    · by_cases hcp : c = p
      · exact .inr ((busy_iff (v := .enter p) rfl c).mpr (.inl hcp))
      · exact .inl (hc.synthesize hcp)
    · exact .inr (hc.push _ _ _)

/-- Scheduling a precedent takes it off the list of those still to be scheduled. -/
theorem Orderly.schedule {w : Walk} {p : Coord} {todo : List Coord} (h : w.Orderly (p :: todo))
    (hp : ∀ c ∈ (path w.stack).head?, w.sheet.text?.Refers c p) :
    (w.schedule p).Orderly todo := by
  have hready : ∀ q, (q ∈ p :: todo ∨ w.Ready q) → q = p ∨ q ∈ todo ∨ (w.schedule p).Ready q :=
    fun q hq => by
      rcases hq with hq | hq
      · exact (List.mem_cons.mp hq).imp_right .inl
      · exact .inr (.inr ((Advances.schedule w p).ready hq))
  rcases schedule_cases w p with ⟨heq, hp'⟩ | ⟨heq, hcontains, -⟩
  · rw [heq] at hready ⊢
    refine { h with awaits := h.awaits.mono fun q hq => ?_ }
    rcases hready q hq with rfl | hq
    · exact .inr hp'
    · exact hq
  · have hext := extends_synthesize w.sheet p
    rw [heq] at hready ⊢
    refine ⟨h.mem_active_iff, h.nodup, ?_, ?_, ?_, ?_, ?_⟩
    · change Chained (w.sheet.synthesize p).text? (.enter p :: w.stack)
      rw [hext.text?_eq]
      exact ⟨hp, h.chained⟩
    · change Awaits (w.sheet.synthesize p).text? _ (.enter p :: w.stack)
      rw [hext.text?_eq]
      exact h.awaits.mono hready
    · intro c hc
      rcases (busy_iff rfl c).mp hc with rfl | hc
      · exact hcontains
      · exact hext.contains c (h.recorded c hc)
    · intro c hc
      obtain ⟨raw, hraw, hformula⟩ := h.formula c hc
      exact ⟨raw, (hext.written (contains_of_raw? hraw)).trans hraw, hformula⟩
    · exact fun c hc => mt (current_synthesize_iff w.sheet p c).mp (h.unfinished c hc)

theorem Faithful.schedule {w : Walk} (h : w.Faithful) (p : Coord) : (w.schedule p).Faithful := by
  rcases schedule_cases w p with ⟨heq, -⟩ | ⟨heq, -⟩ <;> rw [heq]
  · exact h
  · refine ⟨?_, fun c hc => ?_⟩
    · exact (h.sound.synthesize p).mono_busy fun q hq => .inr (.inl (hq.push _ _ _))
    · change c ∈ (w.sheet.synthesize p).stale ∨ _ ∨ (w.sheet.synthesize p).Current c
      rw [stale_synthesize, current_synthesize_iff]
      rcases contains_of_synthesize hc with hc | rfl
      · exact (h.known c hc).imp_right (Or.imp_left fun hc => hc.push _ _ _)
      · exact .inr (.inl ((busy_iff rfl c).mpr (.inl rfl)))

/-- Scheduling all precedents of the formula entered last leaves none to be scheduled. -/
theorem Orderly.foldl_schedule {w : Walk} {todo : List Coord} (h : w.Orderly todo)
    (htodo : ∀ p ∈ todo, ∀ c ∈ (path w.stack).head?, w.sheet.text?.Refers c p) :
    (todo.foldl Walk.schedule w).Orderly [] := by
  induction todo generalizing w with
  | nil => exact h
  | cons p rest ih =>
      refine ih (h.schedule (htodo p List.mem_cons_self)) ?_
      intro q hq
      rw [path_schedule, text?_schedule]
      exact htodo q (List.mem_cons_of_mem _ hq)

theorem Faithful.foldl_schedule {w : Walk} (h : w.Faithful) (todo : List Coord) :
    (todo.foldl Walk.schedule w).Faithful := by
  induction todo generalizing w with
  | nil => exact h
  | cons p rest ih => exact ih (h.schedule p)

theorem Progress.foldl_schedule (w : Walk) (todo : List Coord) :
    Progress w (todo.foldl Walk.schedule w) := by
  induction todo generalizing w with
  | nil => exact Progress.refl w
  | cons p rest ih => exact (Progress.schedule w p).trans (ih (w.schedule p))

end Walk

end LiveSheet
