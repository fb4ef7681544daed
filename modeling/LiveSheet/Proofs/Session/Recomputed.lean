import LiveSheet.Proofs.Session.Draining
import LiveSheet.Proofs.Sheet.Accounts
import LiveSheet.Proofs.Sheet.Agreement

/-! # What an operation recomputes

An edit at rest computes its own cell, what depends on that cell, and what it newly writes. It
does so once for each of them, and leaves all other cells alone. And whatever an operation
computes, it reports a cycle exactly if there is one among the cells that it has computed. -/

namespace LiveSheet

namespace Sheet

variable {s s' : Sheet} {c d : Coord} {raw : String} {cells : List Coord} {report : Report}

/-- What an edit of a cell has to compute when nothing is stale: the cell, what depends on it,
and the cells that have a record only afterwards. -/
def editDue (s : Sheet) (c : Coord) (s' : Sheet) : Set Coord :=
  {d | d = c ∨ d ∈ s.graph.affectedBy c ∨
    (s'.store.contains d = true ∧ s.store.contains d = false)}

theorem mem_editDue_iff : d ∈ s.editDue c s' ↔ d = c ∨ d ∈ s.graph.affectedBy c ∨
    (s'.store.contains d = true ∧ s.store.contains d = false) := Iff.rfl

theorem UpToDate.current_iff (h : s.UpToDate) (d : Coord) :
    s.Current d ↔ s.store.contains d = true :=
  ⟨Current.contains, fun hd => (h.coherent.known hd).resolve_left (h.fresh d)⟩

namespace UpToDate

theorem mem_editWork_iff (h : s.UpToDate) (hs : s.Furnished)
    (hs' : s.edit c raw = .ok (report, s')) (h' : s'.UpToDate) (d : Coord) :
    d ∈ s.editWork c raw ↔ d ∈ s.editDue c s' := by
  have hrevises := h.coherent.revises_edit hs hs'
  have hc : s'.store.contains c = true := hrevises.edited (c, raw) List.mem_cons_self
  have haffected := Graph.mem_affectedBy_iff h.coherent.sound.converse c d
  -- What depends on the cell has a record, for it has a formula.
  have hrecord : d ∈ s.graph.affectedBy c → s'.store.contains d = true := by
    intro hd
    obtain ⟨a, -, had⟩ := Relation.TransGen.tail'_iff.mp (haffected.mp hd)
    exact hrevises.contains d (contains_of_refers ((h.coherent.edge_iff a d).mp had))
  rw [(h.coherent.accounts_edit hs hs').mem_iff, h'.current_iff, h.coherent.current_overwrite_iff,
    h.current_iff, ← haffected, mem_editDue_iff]
  by_cases hdc : d = c
  · simp [hdc, hc]
  · by_cases hd : d ∈ s.graph.affectedBy c
    · simp [hd, hrecord hd]
    · simp [hdc, hd]

/-- A cell that is not computed is as it was. -/
theorem agreeAt_edit (h : s.UpToDate) (hs : s.Furnished)
    (hs' : s.edit c raw = .ok (report, s')) (h' : s'.UpToDate) (hd : d ∉ s.editWork c raw) :
    AgreeAt s s' d := by
  have haccounts := h.coherent.accounts_edit hs hs'
  have hdue := mt (h.mem_editWork_iff hs hs' h' d).mpr hd
  rw [mem_editDue_iff, not_or, not_or, not_and, Bool.not_eq_false] at hdue
  obtain ⟨hdc, -, hold⟩ := hdue
  refine ⟨?_, (Std.TreeSet.Equiv.of_forall_mem_iff (haccounts.precedents_iff d hd)).toList_eq⟩
  by_cases hcontains : s.store.contains d = true
  · rw [haccounts.get?_eq d hd (contains_overwrite hcontains), get?_overwrite hdc]
  · rw [Store.get?_eq_none_of_not_contains (mt hold hcontains),
      Store.get?_eq_none_of_not_contains hcontains]

end UpToDate

/-! ## Cycles -/

/-- From `s` to `s'` a cycle is counted if and only if the records have one among the cells. -/
def CountsCycles (s : Sheet) (cells : List Coord) (s' : Sheet) : Prop :=
  s.counters.cycles < s'.counters.cycles ↔ s'.written.CycleWithin {c | c ∈ cells}

theorem hadCycles_reportSince (s : Sheet) (before : Counters) :
    (s.reportSince before).hadCycles = true ↔ before.cycles < s.counters.cycles := by
  rw [Report.hadCycles, decide_eq_true_eq]
  exact Nat.sub_pos_iff_lt

theorem hadCycles_edit (hs' : s.edit c raw = .ok (report, s')) :
    report.hadCycles = true ↔ s.counters.cycles < s'.counters.cycles := by
  obtain ⟨begun, hbegin, -⟩ := edit_eq_ok hs'
  rw [edit_of_beginEdit hbegin] at hs'
  cases hs'
  exact hadCycles_reportSince _ _

theorem Coherent.countsCycles_edit (h : s.Coherent) (hs : s.Furnished)
    (hs' : s.edit c raw = .ok (report, s')) : CountsCycles s (s.editWork c raw) s' :=
  (h.accounts_edit hs hs').cycles_lt_iff_written

/-- A recalculation computes all records, so no cycle escapes it. -/
theorem countsCycles_recalculateAll (htidy : s.store.Tidy) (hsound : s.markAll.Sound idle) :
    CountsCycles s s.recalculateWork s.recalculateAll.2 ∧
      (s.recalculateAll.1.hadCycles = true ↔ ∃ c, s.recalculateAll.2.written.OnCycle c) :=
  ⟨(accounts_recalculateAll htidy hsound).cycles_lt_iff_written,
    (hadCycles_reportSince _ _).trans (cycles_recalculateAll htidy hsound)⟩

end Sheet

namespace Session

open Sheet

variable {s : Session} {c : Coord}

/-- An edit recomputes exactly what it must, once, if no cascade is pending: the edited cell, the
cells that depend on it by the formulas from before, and the records that it writes from the
template. Every other cell keeps its record and the edges into it. The columns are few enough to
be counted. -/
theorem edit_recomputes_once (h : s.Reachable)
    (hcols : s.sheet.settings.totalCols ≤ Settings.maxCount)
    (hpending : s.sheet.cascadePending = false) (hc : s.sheet.inBounds c = true) (raw : String) :
    ∃ report t, s.sheet.edit c raw = .ok (report, t) ∧
      (s.sheet.editWork c raw).Nodup ∧
      (∀ d, d ∈ s.sheet.editWork c raw ↔ d ∈ s.sheet.editDue c t) ∧
      report.cellsRecomputed = (s.sheet.editDue c t).ncard ∧
      ∀ d, d ∉ s.sheet.editDue c t → AgreeAt s.sheet t d := by
  have hcoherent := h.coherent.sheet
  have hedit := edit_of_beginEdit (beginEdit_of_inBounds hc raw)
  generalize ((s.sheet.overwrite c raw).evaluate c).restart c = begun at hedit
  generalize (begun.cascadeStep noLimit).2 = t at hedit
  have hdrained := hcoherent.cascadePending_edit h.furnished (h.size_lt_noLimit hcols) hedit
  have hbefore := hcoherent.upToDate hpending
  have hafter := (hcoherent.edit hedit).coherent.upToDate hdrained
  have hmem := hbefore.mem_editWork_iff h.furnished hedit hafter
  have haccounts := hcoherent.accounts_edit h.furnished hedit
  refine ⟨_, t, hedit, haccounts.nodup, hmem, ?_, fun d hd => ?_⟩
  · rw [cellsRecomputed_edit hedit, ← haccounts.ncard_eq]
    exact congrArg Set.ncard (Set.ext hmem)
  · exact hbefore.agreeAt_edit h.furnished hedit hafter (mt (hmem d).mp hd)

/-- A formula that refers to itself is computed once. -/
theorem edit_recomputes_self_reference :
    ∃ report t, small.sheet.edit ⟨0, 0⟩ "=A1+1" = .ok (report, t) ∧
      (small.sheet.editWork ⟨0, 0⟩ "=A1+1").count ⟨0, 0⟩ = 1 ∧
      report.cellsRecomputed = (small.sheet.editDue ⟨0, 0⟩ t).ncard := by
  obtain ⟨report, t, hedit, hnodup, hmem, hcount, -⟩ :=
    edit_recomputes_once reachable_small (by decide) (c := ⟨0, 0⟩) rfl rfl "=A1+1"
  refine ⟨report, t, hedit, ?_, hcount⟩
  exact List.count_eq_one_of_mem hnodup ((hmem _).mpr (.inl rfl))

/-- Cycles are counted and reported exactly: if and only if the formulas in the records refer to
each other in a circle all of whose cells were computed by the operation. What is computed all
over reports exactly whether there is a cycle at all. -/
theorem cycles_reported (h : s.Reachable) :
    (∀ c, CountsCycles s.sheet (s.sheet.evaluateWork c) (s.sheet.evaluate c)) ∧
      (∀ c raw report t, s.sheet.edit c raw = .ok (report, t) →
        CountsCycles s.sheet (s.sheet.editWork c raw) t ∧
          (report.hadCycles = true ↔ s.sheet.counters.cycles < t.counters.cycles)) ∧
      (∀ edits report t, s.sheet.editMany edits = .ok (report, t) →
        CountsCycles s.sheet (s.sheet.editManyWork edits) t ∧
          (report.hadCycles = true ↔ s.sheet.counters.cycles < t.counters.cycles) ∧
          (report.hadCycles = true ↔ ∃ c, t.written.OnCycle c)) ∧
      CountsCycles s.sheet s.sheet.recalculateWork s.sheet.recalculateAll.2 ∧
      (s.sheet.recalculateAll.1.hadCycles = true ↔
        s.sheet.counters.cycles < s.sheet.recalculateAll.2.counters.cycles) ∧
      (s.sheet.recalculateAll.1.hadCycles = true ↔
        ∃ c, s.sheet.recalculateAll.2.written.OnCycle c) := by
  have hcoherent := h.coherent.sheet
  refine ⟨fun c => ?_, fun c raw report t hedit => ?_, fun edits report t hedits => ?_, ?_⟩
  · exact hcoherent.sound.cycles_evaluate fun d hd => (hcoherent.known hd).imp_right .inl
  · exact ⟨hcoherent.countsCycles_edit h.furnished hedit, hadCycles_edit hedit⟩
  · obtain ⟨hgrid, -⟩ := editMany_eq_ok hedits
    obtain ⟨htidy, hsound⟩ := hcoherent.sound_rewrite hgrid
    obtain ⟨hcounts, hreports⟩ :=
      countsCycles_recalculateAll (s := (s.sheet.rewrite edits).forget) htidy hsound
    rw [editMany_eq hgrid] at hedits
    have hresult := Except.ok.inj hedits
    have hreport := congrArg Prod.fst hresult
    have ht := congrArg Prod.snd hresult
    rw [editManyWork_eq hgrid]
    subst hreport ht
    exact ⟨hcounts, hadCycles_reportSince _ _, hreports⟩
  · obtain ⟨hcounts, hreports⟩ :=
      countsCycles_recalculateAll hcoherent.sound.tidy hcoherent.sound.markAll
    exact ⟨hcounts, hadCycles_reportSince _ _, hreports⟩

/-- A formula that refers to itself is reported. -/
theorem hadCycles_of_self_reference :
    let s := small.perform (.beginEdit ⟨0, 0⟩ "=A1+1")
    s.Reachable ∧ s.sheet.recalculateAll.1.hadCycles = true := by
  intro s
  have hreach : s.Reachable := reachable_small.perform _
  have hbegins : small.sheet.Begins ⟨0, 0⟩ "=A1+1" s.sheet := reachable_small.begins _ _ rfl
  have hreferences : (Formula.ofRaw "=A1+1").references = [⟨0, 0⟩] := by decide +kernel
  clear_value s
  have hsame := (hreach.furnished.upkeep (upkeep_recalculateAll s.sheet)).2
  have hcontains := (hsame.contains_iff ⟨0, 0⟩).mpr hbegins.current.contains
  have hrefers : s.sheet.recalculateAll.2.written.Refers ⟨0, 0⟩ ⟨0, 0⟩ := by
    rw [refers_written_iff hcontains, hsame.text?_eq,
      Writing.refers_iff (hbegins.text?_eq ⟨0, 0⟩) rfl, hreferences]
    exact List.mem_singleton.mpr rfl
  exact ⟨hreach, (cycles_reported hreach).2.2.2.2.2.mpr ⟨_, .single hrefers⟩⟩

end Session

end LiveSheet
