import LiveSheet.Proofs.Graph.Reach
import LiveSheet.Proofs.Sheet.Evaluation
import LiveSheet.Sheet.Cascade

/-! # Coherent sheets

What holds of a sheet between two operations: it is sound, no text waits to be computed, the
edges are those of the texts, and the cascade has every stale cell still ahead. Evaluating a
cell keeps this, because edges into written cells last; so does filling rows, which is nothing
but evaluating cells. -/

namespace LiveSheet

/-- Following edges from `a` leads to `b` past no cell that is to be avoided. -/
def LeadsPast (edge : Coord → Coord → Prop) (avoid : Coord → Prop) (a b : Coord) : Prop :=
  ¬avoid a ∧ Relation.ReflTransGen (fun x y => edge x y ∧ ¬avoid y) a b

namespace LeadsPast

variable {edge edge' : Coord → Coord → Prop} {avoid avoid' : Coord → Prop} {a b c : Coord}

theorem mono (h : LeadsPast edge avoid a b) (hedge : ∀ x y, edge x y → edge' x y) :
    LeadsPast edge' avoid a b :=
  ⟨h.1, h.2.lift id fun x y hxy => ⟨hedge x y hxy.1, hxy.2⟩⟩

/-- A path that is no longer allowed to visit `c`, and may have lost the edges into `c`, goes
on as before or can be taken up at a cell right behind `c`. -/
theorem detour (h : LeadsPast edge avoid a b) (hb : b ≠ c)
    (hedge : ∀ x y, edge x y → y ≠ c → edge' x y)
    (havoid : ∀ x, ¬avoid x → x ≠ c → ¬avoid' x) (hc : avoid' c) :
    LeadsPast edge' avoid' a b ∨ ∃ d, edge' c d ∧ LeadsPast edge' avoid' d b := by
  obtain ⟨ha, hpath⟩ := h
  -- From the end of the path back to its start: the last visit to `c` is what counts.
  induction hpath using Relation.ReflTransGen.head_induction_on with
  | refl => exact .inl ⟨havoid _ ha hb, .refl⟩
  | @head x y hxy _ ih =>
      rcases ih hxy.2 with ⟨hy, hpath'⟩ | hbehind
      · have hne : y ≠ c := fun heq => hy (heq ▸ hc)
        have hstep := hedge x y hxy.1 hne
        by_cases hx : x = c
        · exact .inr ⟨y, hx ▸ hstep, hy, hpath'⟩
        · exact .inl ⟨havoid x ha hx, .head ⟨hstep, hy⟩ hpath'⟩
      · exact .inr hbehind

end LeadsPast

/-- The cascade will come to a cell: a path leads there from the queue past the cells that have
been visited. -/
def Cascade.Ahead (k : Cascade) (edge : Coord → Coord → Prop) (c : Coord) : Prop :=
  ∃ q ∈ k.queue.toList, LeadsPast edge (· ∈ k.visited) q c

/-- A cell that was ahead still is after `c` has been visited, if the cells right behind `c` are
in the queue. -/
theorem LeadsPast.ahead {edge edge' : Coord → Coord → Prop} {avoid : Coord → Prop}
    {k : Cascade} {a b c : Coord} (h : LeadsPast edge avoid a b) (hb : b ≠ c)
    (hedge : ∀ x y, edge x y → y ≠ c → edge' x y)
    (havoid : ∀ x, ¬avoid x → x ≠ c → x ∉ k.visited) (hc : c ∈ k.visited)
    (ha : a ∉ k.visited → a ∈ k.queue.toList)
    (hbehind : ∀ d, edge' c d → d ∈ k.queue.toList) : k.Ahead edge' b := by
  rcases h.detour hb hedge havoid hc with hpath | ⟨d, hd, hpath⟩
  · exact ⟨a, ha hpath.1, hpath⟩
  · exact ⟨d, hbehind d hd, hpath⟩

namespace Sheet

/-- What holds of a sheet between two operations. -/
structure Coherent (s : Sheet) : Prop where
  sound : s.Sound idle
  built : ∀ c, s.Built c
  ahead : ∀ c ∈ s.stale, s.cascade.Ahead s.graph.Edge c

variable {s s' : Sheet} {c d p : Coord}

theorem edge_iff (hgraph : s.graph.Converse) (hd : s.EdgesMatch d) :
    s.graph.Edge p d ↔ s.written.Refers d p :=
  (hgraph p d).trans (hd p)

/-- Edges into a cell last as long as its text does. -/
theorem edge_of_edge (hgraph : s.graph.Converse) (hd : s.EdgesMatch d)
    (hgraph' : s'.graph.Converse) (hd' : s'.EdgesMatch d)
    (htext : s.store.contains d = true → s'.written d = s.written d) (h : s.graph.Edge p d) :
    s'.graph.Edge p d := by
  have hrefers := (edge_iff hgraph hd).mp h
  have hsame := htext (contains_of_refers hrefers)
  rw [edge_iff hgraph' hd', Writing.Refers, Writing.references_congr hsame]
  exact hrefers

theorem known_of_built (h : ∀ c, s.Built c) (hd : s.store.contains d = true) :
    d ∈ s.stale ∨ s.Current d := by
  obtain ⟨r, hr⟩ := (Store.contains_iff_get? _ _).mp hd
  by_cases hstale : d ∈ s.stale
  · exact .inl hstale
  · exact .inr ⟨r, hr, (h d).1 r hr, hstale⟩

namespace Coherent

theorem edge_iff (h : s.Coherent) (p d : Coord) :
    s.graph.Edge p d ↔ s.written.Refers d p :=
  Sheet.edge_iff h.sound.converse (h.built d).2

/-- A record is current unless it is stale. -/
theorem known (h : s.Coherent) (hd : s.store.contains d = true) :
    d ∈ s.stale ∨ s.Current d :=
  known_of_built h.built hd

/-- What refers to a stale cell is stale. -/
theorem stale_of_refers (h : s.Coherent) (hp : p ∈ s.stale) (hdp : s.written.Refers d p) :
    d ∈ s.stale := by
  have hd := contains_of_refers hdp
  refine (h.known hd).resolve_right fun hcurrent => ?_
  rcases h.sound.closed d hcurrent p ((refers_written_iff hd).mp hdp) with hp' | hp' | hp'
  · obtain ⟨r, -, -, hfresh⟩ := hp'
    exact hfresh hp
  · exact hp'
  · exact text?_ne_none_of_contains (h.sound.stale_recorded p hp) hp'

/-- Once the queue is empty nothing is stale. -/
theorem not_stale_of_queue (h : s.Coherent) (hqueue : s.cascade.queue.toList = []) :
    c ∉ s.stale := by
  intro hc
  obtain ⟨q, hq, -⟩ := h.ahead c hc
  rw [hqueue] at hq
  cases hq

theorem not_stale_of_pending (h : s.Coherent) (hpending : s.cascadePending = false) :
    c ∉ s.stale := by
  refine h.not_stale_of_queue ((Queue.isEmpty_iff _).mp ?_)
  rw [cascadePending, Bool.not_eq_false'] at hpending
  exact hpending

/-- The cascade only has to have the stale cells ahead. -/
theorem withCascade (hsound : s.Sound idle) (hbuilt : ∀ c, s.Built c) {k : Cascade}
    (hahead : ∀ c ∈ s.stale, k.Ahead s.graph.Edge c) :
    Coherent { s with cascade := k } :=
  ⟨{ hsound with }, hbuilt, hahead⟩

/-- A sheet in which every record is current is coherent. -/
theorem of_current (h : s.Sound idle) (hstale : ∀ c, c ∉ s.stale)
    (hcurrent : ∀ c, s.store.contains c = true → s.Current c) : s.Coherent where
  sound := h
  built c := by
    by_cases hc : s.store.contains c = true
    · exact h.built (hcurrent c hc)
    · exact h.built_of_get?_eq_none (Store.get?_eq_none_of_not_contains hc)
  ahead c hc := (hstale c hc).elim

/-! ## Values that are up to date -/

/-- From a current cell the references in the records lead where those in all texts lead. -/
theorem agree_written (h : s.Coherent) :
    Writing.Agree s.written s.text? {d | s.Current d ∨ s.text? d = none} where
  closed d hd p hp := by
    have hcontains := contains_of_refers hp
    rcases hd with hcurrent | hblank
    · rcases h.sound.closed d hcurrent p ((refers_written_iff hcontains).mp hp) with hp | hp | hp
      · exact .inl hp
      · exact hp.elim
      · exact .inr hp
    · exact (text?_ne_none_of_contains hcontains hblank).elim
  eq d hd := by
    rcases hd with hcurrent | hblank
    · exact written_eq_text? hcurrent.contains
    · rw [hblank]
      exact (Store.raw?_eq_none_iff _ _).mpr (get?_eq_none_of_text? hblank)

theorem current_of_not_stale (h : s.Coherent) {r : Record} (hr : s.store.get? c = some r)
    (hfresh : c ∉ s.stale) : s.Current c :=
  ⟨r, hr, (h.built c).1 r hr, hfresh⟩

/-- A record that is not stale holds what fits its text. -/
theorem fits (h : s.Coherent) {r : Record} (hr : s.store.get? c = some r)
    (hfresh : c ∉ s.stale) :
    s.text?.Fits s.inBounds c r.value ∧ (s.written.LeadsToCycle c ↔ s.text?.LeadsToCycle c) := by
  have hcurrent := h.current_of_not_stale hr hfresh
  have hfits := h.sound.fits c hcurrent
  rw [Store.value_of_get? hr] at hfits
  exact ⟨hfits, h.agree_written.leadsToCycle_iff (.inl hcurrent)⟩

/-! ## Evaluating cells -/

theorem evaluates (h : s.Coherent) (c : Coord) : Evaluates s c (s.evaluate c) :=
  h.sound.evaluate fun _ hd => (h.known hd).imp_right .inl

/-- Evaluation adds edges and takes none away. -/
theorem edge_evaluate (h : s.Coherent) (c : Coord) (hedge : s.graph.Edge p d) :
    (s.evaluate c).graph.Edge p d :=
  edge_of_edge h.sound.converse (h.built d).2 (h.evaluates c).sound.converse
    ((h.evaluates c).built d (.inl (h.built d))).2 (h.evaluates c).toExtends.written hedge

theorem evaluate (h : s.Coherent) (c : Coord) : (s.evaluate c).Coherent where
  sound := (h.evaluates c).sound
  built d := (h.evaluates c).built d (.inl (h.built d))
  ahead d hd := by
    obtain ⟨q, hq, hpath⟩ := h.ahead d ((h.evaluates c).toExtends.stale d hd)
    rw [(h.evaluates c).toExtends.cascade_eq]
    exact ⟨q, hq, hpath.mono fun _ _ => h.edge_evaluate c⟩

end Coherent

/-! ## Writing rows -/

/-- A cell that the template fills is filled by evaluating it. -/
theorem fillCell_of_templateText? {raw : String} (hnone : s.store.get? c = none)
    (htext : s.templateText? c = some raw) : s.fillCell c = s.evaluate c := by
  -- Evaluation writes the template text itself, if that has not been done before.
  have habsent := (Store.contains_eq_false_iff _ _).mpr hnone
  have hpresent := Store.contains_setRaw_self s.store c raw
  have htemplate := template_text?_of_templateText? htext
  unfold fillCell
  simp only [hnone, htemplate, Sheet.evaluate, synthesize, habsent, hpresent, htext,
    Bool.false_eq_true, if_false, if_true]

/-- A cell of the grid is filled by evaluating it, if at all. -/
theorem fillCell_cases (hc : s.inBounds c = true) :
    s.fillCell c = s ∨ s.fillCell c = s.evaluate c := by
  cases hr : s.store.get? c with
  | some r =>
      unfold fillCell
      simp only [hr]
      split
      · exact .inr rfl
      · exact .inl rfl
  | none =>
      cases htext : s.templateText? c with
      | some raw => exact .inr (fillCell_of_templateText? hr htext)
      | none =>
          rw [templateText?, if_pos hc] at htext
          left
          simp only [fillCell, hr, htext]

/-- A later sheet that is still coherent, and whose grid has not changed. -/
structure Keeps (s s' : Sheet) : Prop where
  coherent : s'.Coherent
  settings_eq : s'.settings = s.settings

theorem Coherent.keeps (h : s.Coherent) : s.Keeps s :=
  ⟨h, rfl⟩

theorem Keeps.trans {s₁ s₂ s₃ : Sheet} (h₁ : s₁.Keeps s₂) (h₂ : s₂.Keeps s₃) : s₁.Keeps s₃ :=
  ⟨h₂.coherent, h₂.settings_eq.trans h₁.settings_eq⟩

theorem Keeps.evaluate (h : s.Keeps s') (c : Coord) : s.Keeps (s'.evaluate c) :=
  h.trans ⟨h.coherent.evaluate c, (h.coherent.evaluates c).toExtends.settings_eq⟩

theorem Keeps.fillCell (h : s.Keeps s') (hc : s.inBounds c = true) :
    s.Keeps (s'.fillCell c) := by
  rw [← inBounds_congr h.settings_eq] at hc
  rcases fillCell_cases hc with heq | heq
  · rwa [heq]
  · rw [heq]
    exact h.evaluate c

/-- The mark of a row changes nothing else. -/
theorem markMaterialized_eq (s : Sheet) (row : Nat) :
    ∃ materialized, s.markMaterialized row = { s with materialized } := by
  unfold markMaterialized
  split
  · exact ⟨_, rfl⟩
  · exact ⟨s.materialized, rfl⟩

theorem isMaterialized_markMaterialized_iff {row row' : Nat} :
    (s.markMaterialized row).isMaterialized row' = true ↔
      (row' = row ∧ row < s.settings.totalRows) ∨ s.isMaterialized row' = true := by
  unfold markMaterialized
  split
  · next hrow =>
    rw [isMaterialized, Std.HashSet.contains_insert, Bool.or_eq_true, beq_iff_eq,
      eq_comm, and_iff_left hrow]
    rfl
  · next hrow => rw [or_iff_right fun h => hrow h.2]

/-- The marks of written rows play no part in coherence. -/
theorem Keeps.markMaterialized (h : s.Keeps s') (row : Nat) :
    s.Keeps (s'.markMaterialized row) := by
  obtain ⟨materialized, heq⟩ := markMaterialized_eq s' row
  have hsound := h.coherent.sound
  rw [heq]
  exact ⟨⟨{ hsound with }, h.coherent.built, h.coherent.ahead⟩, h.settings_eq⟩

/-- What every step of a count keeps is kept by all of them. -/
theorem Keeps.fold {n : Nat} {f : (i : Nat) → i < n → Sheet → Sheet} (h : s.Coherent)
    (hstep : ∀ i hi s', s.Keeps s' → s.Keeps (f i hi s')) : s.Keeps (n.fold f s) := by
  induction n with
  | zero => exact h.keeps
  | succ n ih =>
      rw [Nat.fold_succ]
      exact hstep n _ _ (ih fun i hi => hstep i _)

theorem Coherent.fillRow (h : s.Coherent) {row : Nat} (hrow : row < s.settings.totalRows) :
    s.Keeps (s.fillRow row) := by
  exact Keeps.fold h fun col hcol s' hs' => hs'.fillCell (inBounds_iff.mpr ⟨hrow, hcol⟩)

theorem Coherent.materializeRow (h : s.Coherent) {row : Nat}
    (hrow : row < s.settings.totalRows) : s.Keeps (s.materializeRow row) := by
  unfold Sheet.materializeRow
  split
  · exact h.keeps
  · split
    · exact (h.fillRow hrow).markMaterialized row
    · exact h.keeps.markMaterialized row

theorem Coherent.materializeRows (h : s.Coherent) {first count : Nat}
    (hrows : ∀ i < count, first + i < s.settings.totalRows) :
    s.Keeps (s.materializeRows first count) := by
  refine Keeps.fold h fun i hi s' hs' => hs'.trans (hs'.coherent.materializeRow ?_)
  rw [hs'.settings_eq]
  exact hrows i hi

/-- Nothing has been written, so nothing can be wrong. -/
theorem coherent_fresh (settings : Settings) (template : Template) :
    (fresh settings template).Coherent := by
  have hnone : ∀ c, (fresh settings template).store.get? c = none := Store.get?_empty
  have hrecord : ∀ c, ¬(fresh settings template).store.contains c = true := fun c => by
    rw [Bool.not_eq_true, Store.contains_eq_false_iff, hnone c]
  have hcurrent : ∀ c, ¬(fresh settings template).Current c := fun c =>
    not_current_of_get?_eq_none (hnone c)
  have hstale : ∀ c, c ∉ (fresh settings template).stale := fun c =>
    Std.HashSet.not_mem_empty
  refine .of_current ?_ hstale fun c hc => (hrecord c hc).elim
  refine ⟨Store.tidy_empty, fun c r hr => ?_, Graph.converse_empty, Memo.sound_empty _,
    fun c hc => (hstale c hc).elim, fun c hc => (hcurrent c hc).elim, fun c _ p => ?_,
    fun c hc => (hcurrent c hc).elim, fun c hc => (hcurrent c hc).elim⟩
  · cases (hnone c).symm.trans hr
  · exact iff_of_false (Graph.not_mem_precedents_empty p c) fun h =>
      hrecord c (contains_of_refers h)

end Sheet

end LiveSheet
