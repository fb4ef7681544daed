import LiveSheet.Proofs.Sheet.Coherence

/-! # Edits keep sheets coherent

An edit marks what depends on its cell as stale along the old edges, and the edges into the
cell are new once it has been evaluated. A path that led to a stale cell may have gone through
the edited cell, but then it can be taken up behind it, at a cell that the edit has put into
the queue. A step of the cascade leaves a cell behind in the same way. A recalculation starts
with every record stale, which is always sound, and ends with none. -/

namespace LiveSheet.Sheet

variable {s s' : Sheet} {c d p : Coord} {raw : String}

/-- An evaluated cell is not stale. -/
theorem Evaluates.not_stale (h : Evaluates s c s') : c ∉ s'.stale := by
  intro hstale
  obtain ⟨r, -, -, hfresh⟩ := h.current (h.sound.stale_recorded c hstale)
  exact hfresh hstale

/-- A cell is refreshed as well by computing it as by finding it up to date. -/
theorem Sound.refresh (h : s.Sound idle)
    (hknown : ∀ d, s.store.contains d = true → d ∈ s.stale ∨ s.Current d) (c : Coord) :
    Evaluates s c (s.refresh c) := by
  unfold Sheet.refresh
  split
  · exact h.evaluate fun d hd => (hknown d hd).imp_right .inl
  · next hfresh =>
    have hcurrent : s.store.contains c = true → s.Current c := fun hc =>
      (hknown c hc).resolve_left fun hstale => hfresh (Std.HashSet.mem_iff_contains.mp hstale)
    refine ⟨.refl s, h, hknown, hcurrent, ?_⟩
    rintro d (hd | rfl)
    · exact hd
    · by_cases hd : s.store.contains d = true
      · exact h.built (hcurrent hd)
      · exact h.built_of_get?_eq_none (Store.get?_eq_none_of_not_contains hd)

/-! ## Beginning an edit -/

/-- New text in a cell, and everything that depends on the cell marked as stale. -/
def overwrite (s : Sheet) (c : Coord) (raw : String) : Sheet :=
  { s with
    store := s.store.setRaw c raw
    stale := s.stale.insertMany (s.graph.affectedBy c) }

/-- The sheet has its cascade start over behind a cell, with the old queue in front. -/
def restart (s : Sheet) (c : Coord) : Sheet :=
  { s with cascade := ⟨s.cascade.queue.append (s.graph.dependents c), {c}⟩ }

/-- What beginning an edit brings about. -/
structure Begins (s : Sheet) (c : Coord) (raw : String) (s' : Sheet) : Prop where
  keeps : s.Keeps s'
  text?_eq : ∀ d, s'.text? d = if d = c then some raw else s.text? d
  current : s'.Current c
  queue_eq : s'.cascade.queue.toList = s.cascade.queue.toList ++ s'.graph.dependents c

theorem Begins.exists_record (h : Begins s c raw s') :
    ∃ r, s'.store.get? c = some r ∧ r.raw = raw ∧ c ∉ s'.stale := by
  have hraw : s'.store.raw? c = some raw :=
    (raw?_of_contains h.current.contains).trans ((h.text?_eq c).trans (if_pos rfl))
  obtain ⟨r, hr, -, hfresh⟩ := h.current
  obtain ⟨r', hr', hraw⟩ := (Store.raw?_eq_some_iff _ _ _).mp hraw
  cases hr.symm.trans hr'
  exact ⟨r, hr, hraw, hfresh⟩

theorem restart_eq (s : Sheet) (c : Coord) :
    { s with cascade.visited := {c} }.enqueueDependents c = s.restart c := rfl

/-- An edit of a cell of the grid is not refused. -/
theorem beginEdit_of_inBounds (hc : s.inBounds c = true) (raw : String) :
    s.beginEdit c raw = .ok (((s.overwrite c raw).evaluate c).restart c) := by
  rw [beginEdit, if_pos hc]
  exact congrArg Except.ok (restart_eq ((s.overwrite c raw).evaluate c) c)

theorem beginEdit_eq_ok (h : s.beginEdit c raw = .ok s') :
    s.inBounds c = true ∧ ((s.overwrite c raw).evaluate c).restart c = s' := by
  by_cases hc : s.inBounds c = true
  · exact ⟨hc, Except.ok.inj ((beginEdit_of_inBounds hc raw).symm.trans h)⟩
  · rw [Sheet.beginEdit, if_neg hc] at h
    cases h

/-- An edit begins, and then the cascade takes one step without a limit. -/
theorem edit_eq_ok {report : Report} (h : s.edit c raw = .ok (report, s')) :
    ∃ s₁, s.beginEdit c raw = .ok s₁ ∧ (s₁.cascadeStep noLimit).2 = s' := by
  unfold Sheet.edit at h
  simp only at h
  split at h
  · cases h
  · next s₁ hbegin =>
    cases h
    exact ⟨s₁, hbegin, rfl⟩

namespace Coherent

theorem mem_stale_overwrite_iff (h : s.Coherent) (d : Coord) :
    d ∈ (s.overwrite c raw).stale ↔ d ∈ s.stale ∨ Relation.TransGen s.graph.Edge c d := by
  rw [overwrite, Std.HashSet.mem_insertMany_list, List.contains_iff_mem,
    Graph.mem_affectedBy_iff h.sound.converse]

theorem current_overwrite_iff (h : s.Coherent) (d : Coord) :
    (s.overwrite c raw).Current d ↔
      d ≠ c ∧ s.Current d ∧ ¬Relation.TransGen s.graph.Edge c d := by
  unfold Current
  rw [h.mem_stale_overwrite_iff, not_or]
  simp only [overwrite, Store.get?_setRaw]
  constructor
  · rintro ⟨r, hr, hpending, hstale, hpath⟩
    by_cases hd : d = c
    · rw [if_pos hd] at hr
      cases hr
      exact (hpending rfl).elim
    · rw [if_neg hd] at hr
      exact ⟨hd, ⟨r, hr, hpending, hstale⟩, hpath⟩
  · rintro ⟨hd, ⟨r, hr, hpending, hstale⟩, hpath⟩
    exact ⟨r, (if_neg hd).trans hr, hpending, hstale, hpath⟩

end Coherent

theorem written_overwrite (hd : d ≠ c) : (s.overwrite c raw).written d = s.written d := by
  rw [written, overwrite, Store.raw?_setRaw, if_neg hd, written]

theorem text?_overwrite (hd : d ≠ c) : (s.overwrite c raw).text? d = s.text? d := by
  unfold text?
  rw [overwrite, Store.raw?_setRaw, if_neg hd]
  rfl

theorem get?_overwrite (hd : d ≠ c) :
    (s.overwrite c raw).store.get? d = s.store.get? d := by
  rw [overwrite, Store.get?_setRaw, if_neg hd]

theorem ne_of_get?_overwrite_eq_none (hd : (s.overwrite c raw).store.get? d = none) :
    d ≠ c := by
  rintro rfl
  rw [overwrite, Store.get?_setRaw, if_pos rfl] at hd
  cases hd

theorem EdgesMatch.overwrite (h : s.EdgesMatch d) (hd : d ≠ c) :
    (s.overwrite c raw).EdgesMatch d := by
  intro p
  rw [Writing.Refers, Writing.references_congr (written_overwrite hd)]
  exact h p

theorem contains_overwrite (h : s.store.contains d = true) :
    (s.overwrite c raw).store.contains d = true :=
  Store.contains_setRaw h

theorem contains_overwrite_iff :
    (s.overwrite c raw).store.contains d = true ↔ d = c ∨ s.store.contains d = true :=
  Store.contains_setRaw_iff

namespace Coherent

/-- What is current after the new text refers only to what is current then, or blank, and
neither is the edited cell. -/
theorem closed_overwrite (h : s.Coherent) (hd : (s.overwrite c raw).Current d)
    (hp : s.text?.Refers d p) :
    p ≠ c ∧ ((s.overwrite c raw).Current p ∨ s.text? p = none) := by
  obtain ⟨hne, hcurrent, hpath⟩ := (h.current_overwrite_iff d).mp hd
  have hedge : s.graph.Edge p d :=
    (h.edge_iff p d).mpr ((refers_written_iff hcurrent.contains).mpr hp)
  have hpc : p ≠ c := by
    rintro rfl
    exact hpath (.single hedge)
  refine ⟨hpc, ?_⟩
  rcases h.sound.closed d hcurrent p hp with hp' | hp' | hp'
  · exact .inl ((h.current_overwrite_iff p).mpr ⟨hpc, hp', fun hcp => hpath (hcp.tail hedge)⟩)
  · exact hp'.elim
  · exact .inr hp'

/-- On these cells the new text changes nothing. -/
theorem agree_overwrite (h : s.Coherent) :
    Writing.Agree s.text? (s.overwrite c raw).text?
      {d | d ≠ c ∧ ((s.overwrite c raw).Current d ∨ s.text? d = none)} where
  closed d hd p hp := by
    rcases hd.2 with hcurrent | hblank
    · exact h.closed_overwrite hcurrent hp
    · rw [Writing.Refers, Writing.references_of_blank hblank] at hp
      cases hp
  eq d hd := (text?_overwrite hd.1).symm

theorem sound_overwrite (h : s.Coherent) (hc : s.inBounds c = true) :
    (s.overwrite c raw).Sound idle where
  tidy := h.sound.tidy.setRaw c raw
  inGrid d r hr := by
    by_cases hd : d = c
    · exact hd ▸ hc
    · rw [get?_overwrite hd] at hr
      exact h.sound.inGrid d r hr
  converse := h.sound.converse
  memo := h.sound.memo
  stale_recorded d hd := by
    apply contains_overwrite
    rcases (h.mem_stale_overwrite_iff d).mp hd with hd | hpath
    · exact h.sound.stale_recorded d hd
    · obtain ⟨a, -, had⟩ := Relation.TransGen.tail'_iff.mp hpath
      exact contains_of_refers ((h.edge_iff a d).mp had)
  edges d hd := by
    obtain ⟨hne, hcurrent, -⟩ := (h.current_overwrite_iff d).mp hd
    exact (h.sound.edges d hcurrent).overwrite hne
  bare d hd := (h.built d).2.overwrite (ne_of_get?_overwrite_eq_none hd)
  closed d hd p hp := by
    have hne := ((h.current_overwrite_iff d).mp hd).1
    rw [Writing.Refers, Writing.references_congr (text?_overwrite hne)] at hp
    obtain ⟨hpc, hp'⟩ := h.closed_overwrite hd hp
    rw [text?_overwrite hpc]
    exact hp'.imp_right .inr
  fits d hd := by
    obtain ⟨hne, hcurrent, -⟩ := (h.current_overwrite_iff d).mp hd
    have hvalue : (s.overwrite c raw).store.value d = s.store.value d := by
      unfold Store.value
      rw [get?_overwrite hne]
    rw [hvalue]
    exact h.agree_overwrite.fits ⟨hne, .inl hd⟩ (h.sound.fits d hcurrent)

/-- Only the edited cell waits to be computed without being stale. -/
theorem known_overwrite (h : s.Coherent) (raw : String) (d : Coord)
    (hd : (s.overwrite c raw).store.contains d = true) :
    d ∈ (s.overwrite c raw).stale ∨ (s.overwrite c raw).Current d ∨ d = c := by
  rcases contains_overwrite_iff.mp hd with hdc | hold
  · exact .inr (.inr hdc)
  · by_cases hdc : d = c
    · exact .inr (.inr hdc)
    · by_cases hpath : Relation.TransGen s.graph.Edge c d
      · exact .inl ((h.mem_stale_overwrite_iff d).mpr (.inr hpath))
      · rcases h.known hold with hstale | hcurrent
        · exact .inl ((h.mem_stale_overwrite_iff d).mpr (.inl hstale))
        · exact .inr (.inl ((h.current_overwrite_iff d).mpr ⟨hdc, hcurrent, hpath⟩))

theorem evaluates_overwrite (h : s.Coherent) (raw : String) (hc : s.inBounds c = true) :
    Evaluates (s.overwrite c raw) c ((s.overwrite c raw).evaluate c) :=
  (h.sound_overwrite hc).evaluate (h.known_overwrite raw)

theorem built_overwrite (h : s.Coherent) (raw : String) (hc : s.inBounds c = true)
    (d : Coord) : ((s.overwrite c raw).evaluate c).Built d := by
  refine (h.evaluates_overwrite raw hc).built d ?_
  by_cases hd : d = c
  · exact .inr hd
  · refine .inl ⟨fun r hr => ?_, (h.built d).2.overwrite hd⟩
    rw [get?_overwrite hd] at hr
    exact (h.built d).1 r hr

/-- An edit leaves the edges into all other cells. -/
theorem edge_overwrite (h : s.Coherent) (raw : String) (hc : s.inBounds c = true)
    (hd : d ≠ c) (hedge : s.graph.Edge p d) : ((s.overwrite c raw).evaluate c).graph.Edge p d := by
  have hev := h.evaluates_overwrite raw hc
  refine edge_of_edge h.sound.converse (h.built d).2 hev.sound.converse
    (h.built_overwrite raw hc d).2 ?_ hedge
  intro hcontains
  rw [hev.toExtends.written (contains_overwrite hcontains), written_overwrite hd]

/-- The cascade that starts over behind the edited cell has every stale cell ahead. -/
theorem ahead_restart (h : s.Coherent) {s₁ : Sheet} (hev : Evaluates (s.overwrite c raw) c s₁)
    (hedge : ∀ x y, s.graph.Edge x y → y ≠ c → s₁.graph.Edge x y) (hd : d ∈ s₁.stale) :
    (s₁.restart c).cascade.Ahead s₁.graph.Edge d := by
  have hdc : d ≠ c := fun heq => hev.not_stale (heq ▸ hd)
  have hqueue : ∀ q, q ∈ (s₁.restart c).cascade.queue.toList ↔
      q ∈ s.cascade.queue.toList ∨ s₁.graph.Edge c q := by
    intro q
    rw [restart, Queue.toList_append, List.mem_append, hev.toExtends.cascade_eq]
    rfl
  have hvisited : ∀ x, x ∈ (s₁.restart c).cascade.visited ↔ x = c := by
    intro x
    simp only [restart, Std.HashSet.singleton_eq_insert, Std.HashSet.mem_insert, beq_iff_eq,
      Std.HashSet.not_mem_empty, or_false]
    exact eq_comm
  have hself := (hvisited c).mpr rfl
  have havoid : ∀ x, x ≠ c → x ∉ (s₁.restart c).cascade.visited := fun x => mt (hvisited x).mp
  have hbehind : ∀ e, s₁.graph.Edge c e → e ∈ (s₁.restart c).cascade.queue.toList :=
    fun e he => (hqueue e).mpr (.inr he)
  -- A cell was stale before and ahead of the cascade, or it is stale because of the edit.
  rcases (h.mem_stale_overwrite_iff d).mp (hev.toExtends.stale d hd) with hold | hpath
  · obtain ⟨q, hq, hahead⟩ := h.ahead d hold
    exact hahead.ahead hdc hedge (fun x _ => havoid x) hself
      (fun _ => (hqueue q).mpr (.inl hq)) hbehind
  · have hahead : LeadsPast s.graph.Edge (fun _ => False) c d :=
      ⟨id, hpath.to_reflTransGen.lift id fun _ _ hxy => ⟨hxy, id⟩⟩
    exact hahead.ahead hdc hedge (fun x _ => havoid x) hself (fun hc => (hc hself).elim) hbehind

/-- Nothing but the text of its cell is changed by an edit, and the cell is up to date at
once. -/
theorem beginEdit (h : s.Coherent) (hs' : s.beginEdit c raw = .ok s') :
    Begins s c raw s' := by
  obtain ⟨hc, rfl⟩ := beginEdit_eq_ok hs'
  have hev := h.evaluates_overwrite raw hc
  have hbuilt := h.built_overwrite raw hc
  have hedge : ∀ x y, s.graph.Edge x y → y ≠ c →
      ((s.overwrite c raw).evaluate c).graph.Edge x y :=
    fun x y hxy hy => h.edge_overwrite raw hc hy hxy
  have hraw : (s.overwrite c raw).store.raw? c = some raw :=
    (Store.raw?_setRaw _ c c raw).trans (if_pos rfl)
  generalize (s.overwrite c raw).evaluate c = s₁ at *
  have htext : ∀ d, s₁.text? d = if d = c then some raw else s.text? d := by
    intro d
    rw [hev.toExtends.text?_eq]
    split
    · next hd =>
      rw [hd]
      exact text?_of_raw? hraw
    · next hd => exact text?_overwrite hd
  have hcurrent := hev.current (hev.toExtends.contains c (contains_of_raw? hraw))
  have hqueue : (s₁.restart c).cascade.queue.toList =
      s.cascade.queue.toList ++ s₁.graph.dependents c := by
    rw [restart, Queue.toList_append, hev.toExtends.cascade_eq]
    rfl
  exact ⟨⟨withCascade hev.sound hbuilt fun d hd => h.ahead_restart hev hedge hd,
    hev.toExtends.settings_eq⟩, htext, hcurrent, hqueue⟩

/-! ## Advancing the cascade -/

/-- A cell that is taken from the queue and has been visited leads nowhere new. -/
theorem skip (h : s.Coherent) {queue : Queue Coord}
    (hpop : s.cascade.queue.pop? = some (c, queue)) (hc : c ∈ s.cascade.visited) :
    s.Keeps { s with cascade.queue := queue } := by
  refine ⟨withCascade h.sound h.built fun d hd => ?_, rfl⟩
  obtain ⟨q, hq, hahead⟩ := h.ahead d hd
  rw [Queue.toList_of_pop? hpop] at hq
  rcases List.mem_cons.mp hq with rfl | hq
  · exact (hahead.1 hc).elim
  · exact ⟨q, hq, hahead⟩

theorem visitDependent_eq (s : Sheet) (c : Coord) :
    s.visitDependent c =
      ({ s with cascade.visited := s.cascade.visited.insert c }.refresh c).enqueueDependents c :=
  rfl

/-- A cell that has not been visited is left up to date, and its dependents take its place. -/
theorem visitDependent (h : s.Coherent) {queue : Queue Coord}
    (hpop : s.cascade.queue.pop? = some (c, queue)) :
    s.Keeps ({ s with cascade.queue := queue }.visitDependent c) := by
  rw [visitDependent_eq]
  have hev := Sound.refresh (s := { s with cascade := ⟨queue, s.cascade.visited.insert c⟩ })
    { h.sound with } (fun d hd => h.known hd) c
  have hbuilt := fun d => hev.built d (.inl (h.built d))
  have hkept := fun x y => edge_of_edge (p := x) h.sound.converse (h.built y).2
    hev.sound.converse (hbuilt y).2 hev.toExtends.written
  have hsettings := hev.toExtends.settings_eq
  have hcascade := hev.toExtends.cascade_eq
  generalize Sheet.refresh { s with cascade := ⟨queue, s.cascade.visited.insert c⟩ } c = s₁
    at *
  refine ⟨withCascade hev.sound hbuilt fun d hd => ?_, hsettings⟩
  have hdc : d ≠ c := fun heq => hev.not_stale (heq ▸ hd)
  obtain ⟨q, hq, hahead⟩ := h.ahead d (hev.toExtends.stale d hd)
  rw [Queue.toList_of_pop? hpop, List.mem_cons] at hq
  have hvisited : ∀ x, x ∈ s₁.cascade.visited ↔ x = c ∨ x ∈ s.cascade.visited := by
    intro x
    rw [hcascade, Std.HashSet.mem_insert, beq_iff_eq, eq_comm]
  refine hahead.ahead hdc (fun x y hxy _ => hkept x y hxy) ?_ ((hvisited c).mpr (.inl rfl)) ?_ ?_
  · exact fun x hx hne hmem => ((hvisited x).mp hmem).elim hne hx
  · intro hfresh
    rw [Queue.toList_append, hcascade]
    exact List.mem_append_left _ (hq.resolve_left fun heq => hfresh ((hvisited q).mpr (.inl heq)))
  · intro e he
    rw [Queue.toList_append]
    exact List.mem_append_right _ he

theorem visitDependents (h : s.Coherent) (limit : Nat) :
    s.Keeps (Sheet.visitDependents limit s).2 := by
  fun_induction Sheet.visitDependents limit s with
  | case1 s => exact h.keeps
  | case2 s => exact h.keeps
  | case3 s left c queue hpop _ s' hvisited ih =>
      have hskip := h.skip hpop (Std.HashSet.mem_iff_contains.mpr hvisited)
      exact hskip.trans (ih hskip.coherent)
  | case4 s left c queue hpop _ s' _ ih =>
      have hvisit := h.visitDependent hpop
      exact hvisit.trans (ih hvisit.coherent)

/-- With nothing ahead nothing is stale, so the visited cells may be forgotten. -/
theorem closeCascade (h : s.Coherent) : s.Keeps s.closeCascade := by
  unfold Sheet.closeCascade
  split
  · next hempty =>
    have hqueue := (Queue.isEmpty_iff _).mp hempty
    exact ⟨withCascade h.sound h.built fun d hd => (h.not_stale_of_queue hqueue hd).elim, rfl⟩
  · exact h.keeps

theorem cascadeStep (h : s.Coherent) (limit : Nat) : s.Keeps (s.cascadeStep limit).2 :=
  (h.visitDependents limit).trans (h.visitDependents limit).coherent.closeCascade

theorem edit (h : s.Coherent) {report : Report} (hs' : s.edit c raw = .ok (report, s')) :
    s.Keeps s' := by
  obtain ⟨s₁, hbegin, rfl⟩ := edit_eq_ok hs'
  have hkeeps := (h.beginEdit hbegin).keeps
  exact hkeeps.trans (hkeeps.coherent.cascadeStep _)

end Coherent

/-! ## Recalculating everything -/

/-- Every record marked as stale. -/
def markAll (s : Sheet) : Sheet :=
  { s with stale := s.stale.insertMany s.store.coords }

theorem mem_stale_markAll (htidy : s.store.Tidy) (hc : s.store.contains c = true) :
    c ∈ s.markAll.stale := by
  rw [markAll, Std.HashSet.mem_insertMany_list, List.contains_iff_mem,
    Store.mem_coords_iff htidy]
  exact .inr hc

theorem not_current_markAll (htidy : s.store.Tidy) (c : Coord) : ¬s.markAll.Current c := by
  intro hc
  have hcontains : s.store.contains c = true := hc.contains
  obtain ⟨r, -, -, hfresh⟩ := hc
  exact hfresh (mem_stale_markAll htidy hcontains)

/-- A sheet in which every record is stale makes no promises about values. -/
theorem sound_markAll (htidy : s.store.Tidy)
    (hgrid : ∀ c r, s.store.get? c = some r → s.inBounds c = true)
    (hgraph : s.graph.Converse) (hmemo : s.memo.Sound .ofNumbers)
    (hstale : ∀ c ∈ s.stale, s.store.contains c = true)
    (hbare : ∀ c, s.store.get? c = none → s.EdgesMatch c) : s.markAll.Sound idle := by
  -- No record is current, and all that soundness says of values is said of current records.
  have hnone := not_current_markAll htidy
  refine ⟨htidy, hgrid, hgraph, hmemo, ?_, fun c hc => (hnone c hc).elim, hbare,
    fun c hc => (hnone c hc).elim, fun c hc => (hnone c hc).elim⟩
  intro c hc
  rw [markAll, Std.HashSet.mem_insertMany_list, List.contains_iff_mem,
    Store.mem_coords_iff htidy] at hc
  exact hc.elim (hstale c) id

theorem Sound.markAll (h : s.Sound idle) : s.markAll.Sound idle :=
  sound_markAll h.tidy h.inGrid h.converse h.memo h.stale_recorded h.bare

/-- Refreshing cells one after the other leaves none of them stale. -/
theorem Sound.foldl_refresh (h : s.Sound idle)
    (hknown : ∀ d, s.store.contains d = true → d ∈ s.stale ∨ s.Current d)
    (cells : List Coord) :
    Extends s (cells.foldl Sheet.refresh s) ∧ (cells.foldl Sheet.refresh s).Sound idle ∧
      (∀ d, (cells.foldl Sheet.refresh s).store.contains d = true →
        d ∈ (cells.foldl Sheet.refresh s).stale ∨ (cells.foldl Sheet.refresh s).Current d) ∧
      ∀ c ∈ cells, c ∉ (cells.foldl Sheet.refresh s).stale := by
  induction cells generalizing s with
  | nil => exact ⟨.refl s, h, hknown, fun c hc => (List.not_mem_nil hc).elim⟩
  | cons c rest ih =>
      have hev := h.refresh hknown c
      obtain ⟨hext, hsound, hknown', hfresh⟩ := ih hev.sound hev.known
      refine ⟨hev.toExtends.trans hext, hsound, hknown', ?_⟩
      intro d hd
      rcases List.mem_cons.mp hd with rfl | hd
      · exact fun hstale => hev.not_stale (hext.stale d hstale)
      · exact hfresh d hd

/-- A recalculation computes what was marked, and writes no text. -/
theorem extends_recalculateAll (htidy : s.store.Tidy) (hsound : s.markAll.Sound idle) :
    Extends s.markAll s.recalculateAll.2 :=
  (hsound.foldl_refresh (fun _ hd => .inl (mem_stale_markAll htidy hd))
    (s.store.formulaCells ++ s.store.coords)).1

/-- A recalculation leaves nothing stale. -/
theorem not_stale_recalculateAll (htidy : s.store.Tidy) (hsound : s.markAll.Sound idle)
    (c : Coord) : c ∉ s.recalculateAll.2.stale := by
  intro hc
  obtain ⟨hext, -, -, hfresh⟩ := hsound.foldl_refresh
    (fun _ hd => .inl (mem_stale_markAll htidy hd)) (s.store.formulaCells ++ s.store.coords)
  have hrecorded : s.store.contains c = true := hsound.stale_recorded c (hext.stale c hc)
  exact hfresh c (List.mem_append_right _ ((Store.mem_coords_iff htidy c).mpr hrecorded)) hc

/-- A recalculation makes a sheet coherent whatever its values were. -/
theorem keeps_recalculateAll (htidy : s.store.Tidy) (hsound : s.markAll.Sound idle) :
    s.Keeps s.recalculateAll.2 := by
  obtain ⟨hext, hsound', hknown', -⟩ := hsound.foldl_refresh
    (fun _ hd => .inl (mem_stale_markAll htidy hd)) (s.store.formulaCells ++ s.store.coords)
  have hnone := not_stale_recalculateAll htidy hsound
  exact ⟨.of_current hsound' hnone fun c hc => (hknown' c hc).resolve_left (hnone c),
    hext.settings_eq⟩

theorem Coherent.recalculateAll (h : s.Coherent) : s.Keeps s.recalculateAll.2 :=
  keeps_recalculateAll h.sound.tidy h.sound.markAll

/-- Texts of the grid written one after the other. -/
theorem foldl_setRaw {inGrid : Coord → Bool} {edits : List (Coord × String)} {store : Store}
    (htidy : store.Tidy) (hgrid : ∀ c r, store.get? c = some r → inGrid c = true)
    (hedits : ∀ edit ∈ edits, inGrid edit.1 = true) :
    (edits.foldl (fun store (c, raw) => store.setRaw c raw) store).Tidy ∧
      (∀ c r, (edits.foldl (fun store (c, raw) => store.setRaw c raw) store).get? c = some r →
        inGrid c = true) ∧
      ∀ c, (store.contains c = true ∨ ∃ raw, (c, raw) ∈ edits) →
        (edits.foldl (fun store (c, raw) => store.setRaw c raw) store).contains c = true := by
  induction edits generalizing store with
  | nil => exact ⟨htidy, hgrid, fun c hc => hc.resolve_right fun ⟨_, h⟩ => List.not_mem_nil h⟩
  | cons edit rest ih =>
      obtain ⟨c, raw⟩ := edit
      have hgrid' : ∀ d r, (store.setRaw c raw).get? d = some r → inGrid d = true := by
        intro d r hr
        rw [Store.get?_setRaw] at hr
        split at hr
        · next hd => exact hd ▸ hedits _ List.mem_cons_self
        · exact hgrid d r hr
      obtain ⟨htidy', hgrid'', hcontains⟩ := ih (htidy.setRaw c raw) hgrid'
        fun edit hedit => hedits edit (List.mem_cons_of_mem _ hedit)
      refine ⟨htidy', hgrid'', fun d hd => hcontains d ?_⟩
      rcases hd with hd | ⟨raw', hd⟩
      · exact .inl (Store.contains_setRaw hd)
      · rcases List.mem_cons.mp hd with heq | hd
        · cases heq
          exact .inl (Store.contains_setRaw_self _ _ _)
        · exact .inr ⟨raw', hd⟩

/-- An empty graph suits the cells without text. -/
theorem edgesMatch_forget (hnone : s.store.get? c = none) : s.forget.EdgesMatch c := by
  intro p
  refine iff_of_false (Graph.not_mem_precedents_empty p c) ?_
  intro hrefers
  have hcontains : s.store.contains c = true := contains_of_refers (s := s.forget) hrefers
  rw [(Store.contains_eq_false_iff _ _).mpr hnone] at hcontains
  cases hcontains

/-- What was known of the values does not matter to a recalculation from an empty graph. -/
theorem sound_markAll_forget (htidy : s.store.Tidy)
    (hgrid : ∀ c r, s.store.get? c = some r → s.inBounds c = true)
    (hmemo : s.memo.Sound .ofNumbers)
    (hstale : ∀ c ∈ s.stale, s.store.contains c = true) : s.forget.markAll.Sound idle :=
  sound_markAll htidy hgrid Graph.converse_empty hmemo.clear hstale
    fun _ hnone => edgesMatch_forget hnone

/-- Some texts written, and nothing computed. -/
def rewrite (s : Sheet) (edits : List (Coord × String)) : Sheet :=
  { s with store := edits.foldl (fun store (c, raw) => store.setRaw c raw) s.store }

/-- Edits of cells of the grid are applied together by writing all texts first. -/
theorem editMany_eq {edits : List (Coord × String)}
    (hedits : ∀ edit ∈ edits, s.inBounds edit.1 = true) :
    s.editMany edits = .ok (s.rewrite edits).forget.recalculateAll := by
  have hfind : (edits.find? fun (c, _) => !s.inBounds c) = none := by
    simpa using hedits
  simp only [Sheet.editMany, hfind]
  rfl

/-- The first cell out of bounds has all edits refused. -/
theorem editMany_eq_error {first rest : List (Coord × String)}
    (hfirst : ∀ edit ∈ first, s.inBounds edit.1 = true) (hc : s.inBounds c = false) :
    s.editMany (first ++ (c, raw) :: rest) = .error (s.outOfBounds c) := by
  have hnone : (first.find? fun (c, _) => !s.inBounds c) = none := by
    simpa using hfirst
  have hfind : ((first ++ (c, raw) :: rest).find? fun (c, _) => !s.inBounds c) =
      some (c, raw) := by
    rw [List.find?_append, hnone, Option.none_or, List.find?_cons_of_pos (by simp [hc])]
  simp only [Sheet.editMany, hfind]

theorem editMany_eq_ok {edits : List (Coord × String)} {report : Report}
    (h : s.editMany edits = .ok (report, s')) :
    (∀ edit ∈ edits, s.inBounds edit.1 = true) ∧
      (s.rewrite edits).forget.recalculateAll.2 = s' := by
  have hedits : ∀ edit ∈ edits, s.inBounds edit.1 = true := by
    unfold Sheet.editMany at h
    split at h
    · cases h
    · next hfind => simpa using List.find?_eq_none.mp hfind
  rw [editMany_eq hedits] at h
  exact ⟨hedits, congrArg Prod.snd (Except.ok.inj h)⟩

/-- After the texts have been written a recalculation may start. -/
theorem Coherent.sound_rewrite (h : s.Coherent) {edits : List (Coord × String)}
    (hedits : ∀ edit ∈ edits, s.inBounds edit.1 = true) :
    (s.rewrite edits).store.Tidy ∧ (s.rewrite edits).forget.markAll.Sound idle := by
  obtain ⟨htidy, hgrid, hcontains⟩ := foldl_setRaw h.sound.tidy h.sound.inGrid hedits
  exact ⟨htidy, sound_markAll_forget (s := s.rewrite edits) htidy hgrid h.sound.memo
    fun c hc => hcontains c (.inl (h.sound.stale_recorded c hc))⟩

theorem Coherent.editMany (h : s.Coherent) {edits : List (Coord × String)} {report : Report}
    (hs' : s.editMany edits = .ok (report, s')) : s.Keeps s' := by
  obtain ⟨hedits, rfl⟩ := editMany_eq_ok hs'
  obtain ⟨htidy, hsound⟩ := h.sound_rewrite hedits
  have hkeeps := keeps_recalculateAll (s := (s.rewrite edits).forget) htidy hsound
  exact ⟨hkeeps.coherent, hkeeps.settings_eq⟩

/-- Edits applied together leave nothing stale and nothing to propagate. -/
theorem Coherent.settled_editMany (h : s.Coherent) {edits : List (Coord × String)}
    {report : Report} (hs' : s.editMany edits = .ok (report, s')) :
    (∀ c, c ∉ s'.stale) ∧ s'.cascade.queue.toList = [] := by
  obtain ⟨hedits, rfl⟩ := editMany_eq_ok hs'
  obtain ⟨htidy, hsound⟩ := h.sound_rewrite hedits
  refine ⟨not_stale_recalculateAll (s := (s.rewrite edits).forget) htidy hsound, ?_⟩
  rw [(extends_recalculateAll (s := (s.rewrite edits).forget) htidy hsound).cascade_eq]
  rfl

end LiveSheet.Sheet
