import LiveSheet.Proofs.Sheet.Coherence

/-! # Sheets that agree

In a sheet that is up to date the texts decide everything else: without cycles they decide the
value of every record, and they always decide the edges. Two such sheets with the same texts
therefore agree on every cell that has a record in both, whatever has happened to them before. -/

namespace LiveSheet

/-- The dependents of a cell are listed in row-major order, so that the edges decide the list. -/
theorem Graph.dependents_congr {g g' : Graph} {p : Coord}
    (h : ∀ d, d ∈ g'.dependents p ↔ d ∈ g.dependents p) : g'.dependents p = g.dependents p := by
  have hlist : ∀ g : Graph, g.dependents p = (g.dependentSets[p]?.getD ∅).toList := by
    intro g
    unfold dependents
    cases g.dependentSets[p]? with
    | none => rfl
    | some set => rfl
  simp only [hlist, Std.TreeSet.mem_toList] at h ⊢
  exact (Std.TreeSet.Equiv.of_forall_mem_iff h).toList_eq

namespace Sheet

variable {s s' : Sheet} {c d p : Coord}

/-- Both sheets have the same record for a cell, or none, and the same edges into it. -/
structure AgreeAt (s s' : Sheet) (c : Coord) : Prop where
  get?_eq : s'.store.get? c = s.store.get? c
  precedents_eq : (s'.graph.precedents c).toList = (s.graph.precedents c).toList

/-- Both sheets have the same records and the same edges. -/
structure Alike (s s' : Sheet) : Prop where
  agreeAt : ∀ c, AgreeAt s s' c
  dependents_eq : ∀ p, s'.graph.dependents p = s.graph.dependents p

/-- A coherent sheet in which nothing is stale. -/
structure UpToDate (s : Sheet) : Prop where
  coherent : s.Coherent
  fresh : ∀ c, c ∉ s.stale

theorem Coherent.upToDate (h : s.Coherent) (hpending : s.cascadePending = false) :
    s.UpToDate :=
  ⟨h, fun _ => h.not_stale_of_pending hpending⟩

/-- Once all that the template has is written, the records are the cells that have text. -/
theorem contains_iff_text?_ne_none
    (h : ∀ c, s.templateText? c ≠ none → s.store.contains c = true) (c : Coord) :
    s.store.contains c = true ↔ s.text? c ≠ none := by
  refine ⟨text?_ne_none_of_contains, fun htext => ?_⟩
  by_contra hc
  rw [text?_of_get?_eq_none (Store.get?_eq_none_of_not_contains hc)] at htext
  exact hc (h c htext)

/-- The text of a record decides which edges lead into its cell. -/
theorem Coherent.mem_precedents_iff_of_written (h : s.Coherent) (h' : s'.Coherent)
    (hwritten : s'.written c = s.written c) (p : Coord) :
    p ∈ s'.graph.precedents c ↔ p ∈ s.graph.precedents c := by
  rw [(h'.built c).2 p, (h.built c).2 p, Writing.Refers, Writing.Refers,
    Writing.references_congr hwritten]

theorem Coherent.agreeAt (h : s.Coherent) (h' : s'.Coherent)
    (hget : s'.store.get? c = s.store.get? c) : AgreeAt s s' c := by
  have hwritten : s'.written c = s.written c := congrArg (Option.map Record.raw) hget
  have hmem := h.mem_precedents_iff_of_written h' hwritten
  exact ⟨hget, (Std.TreeSet.Equiv.of_forall_mem_iff hmem).toList_eq⟩

/-- Coherent sheets with the same records have the same edges as well. -/
theorem Coherent.alike (h : s.Coherent) (h' : s'.Coherent)
    (hget : ∀ c, s'.store.get? c = s.store.get? c) : Alike s s' := by
  refine ⟨fun c => h.agreeAt h' (hget c), fun p => Graph.dependents_congr fun d => ?_⟩
  have hwritten : s'.written d = s.written d := congrArg (Option.map Record.raw) (hget d)
  rw [h'.sound.converse, h.sound.converse, h.mem_precedents_iff_of_written h' hwritten]

namespace UpToDate

/-- Without cycles the texts decide the record of a cell that has one. -/
theorem get?_eq (h : s.UpToDate) (h' : s'.UpToDate) (hgrid : s'.inBounds = s.inBounds)
    (htext : s'.text? = s.text?) (hacyclic : ∀ c, ¬s.written.OnCycle c)
    (hc : s.store.contains c = true) (hc' : s'.store.contains c = true) :
    s'.store.get? c = s.store.get? c := by
  obtain ⟨⟨raw, value⟩, hr⟩ := (Store.contains_iff_get? _ _).mp hc
  obtain ⟨⟨raw', value'⟩, hr'⟩ := (Store.contains_iff_get? _ _).mp hc'
  obtain ⟨hfits, hcycle⟩ := h.coherent.fits hr (h.fresh c)
  obtain ⟨hfits', -⟩ := h'.coherent.fits hr' (h'.fresh c)
  have hleads : ¬s.text?.LeadsToCycle c := by
    rw [← hcycle]
    rintro ⟨d, -, hd⟩
    exact hacyclic d hd
  -- Both values are what the same text denotes.
  have hvalue : value' = value := by
    rw [htext, hgrid] at hfits'
    exact (hfits'.denotes hleads).unique (hfits.denotes hleads)
  have hraw : some raw' = some raw := by
    rw [← text?_of_raw? ((Store.raw?_eq_some_iff _ _ _).mpr ⟨_, hr', rfl⟩),
      ← text?_of_raw? ((Store.raw?_eq_some_iff _ _ _).mpr ⟨_, hr, rfl⟩), htext]
  cases hraw
  rw [hr, hr', hvalue]

theorem agreeAt (h : s.UpToDate) (h' : s'.UpToDate) (hgrid : s'.inBounds = s.inBounds)
    (htext : s'.text? = s.text?) (hacyclic : ∀ c, ¬s.written.OnCycle c)
    (hc : s.store.contains c = true) (hc' : s'.store.contains c = true) : AgreeAt s s' c :=
  h.coherent.agreeAt h'.coherent (h.get?_eq h' hgrid htext hacyclic hc hc')

/-- Sheets with the same texts that have records for the same cells are alike. -/
theorem alike (h : s.UpToDate) (h' : s'.UpToDate) (hgrid : s'.inBounds = s.inBounds)
    (htext : s'.text? = s.text?) (hacyclic : ∀ c, ¬s.written.OnCycle c)
    (hcontains : ∀ c, s'.store.contains c = true ↔ s.store.contains c = true) :
    Alike s s' := by
  refine h.coherent.alike h'.coherent fun c => ?_
  by_cases hc : s.store.contains c = true
  · exact h.get?_eq h' hgrid htext hacyclic hc ((hcontains c).mpr hc)
  · rw [Store.get?_eq_none_of_not_contains hc,
      Store.get?_eq_none_of_not_contains (mt (hcontains c).mp hc)]

end UpToDate

end Sheet

end LiveSheet
