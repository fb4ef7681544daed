import LiveSheet.Proofs.Sheet.Upkeep
import Mathlib.Logic.Function.Basic

/-! # Revisions

Whatever a sheet is asked for, its texts afterwards are those from before, revised by the edits
that it has been given. Evaluation, upkeep and the filling of rows revise nothing: a text that
they write into a cell was the text of that cell before, by the template. -/

namespace LiveSheet

/-- The text that the last of some edits of a cell gives to it. -/
def lastText? (edits : List (Coord × String)) (c : Coord) : Option String :=
  edits.reverse.lookup c

theorem mem_of_lastText?_eq_some {edits : List (Coord × String)} {c : Coord} {raw : String}
    (h : lastText? edits c = some raw) : (c, raw) ∈ edits := by
  obtain ⟨later, earlier, hedits, -⟩ := List.lookup_eq_some_iff.mp h
  rw [← List.mem_reverse, hedits]
  exact List.mem_append_right later List.mem_cons_self

namespace Writing

/-- The texts after some edits, made one after the other. -/
def revise (t : Writing) (edits : List (Coord × String)) : Writing :=
  edits.foldl (fun t edit => Function.update t edit.1 (some edit.2)) t

theorem revise_append (t : Writing) (edits edits' : List (Coord × String)) :
    t.revise (edits ++ edits') = (t.revise edits).revise edits' :=
  List.foldl_append

/-- The last edit of a cell decides. -/
theorem revise_apply (t : Writing) (edits : List (Coord × String)) (c : Coord) :
    t.revise edits c = (lastText? edits c).or (t c) := by
  induction edits generalizing t with
  | nil => rfl
  | cons edit rest ih =>
      rw [revise, List.foldl_cons, ← revise, ih, lastText?, lastText?, List.reverse_cons,
        List.lookup_append, Option.or_assoc, Function.update_apply, List.lookup_cons]
      by_cases hc : c = edit.1
      · simp [hc]
      · simp [hc, beq_false_of_ne hc]

end Writing

namespace Sheet

variable {s s' s₁ s₂ : Sheet} {c d : Coord} {raw : String} {edits edits' : List (Coord × String)}

/-- From `s` to `s'` the texts have been revised by some edits, and nothing has been lost. Every
cell that was edited has a record. -/
structure Revises (s : Sheet) (edits : List (Coord × String)) (s' : Sheet) : Prop where
  furnished : s'.Furnished
  settings_eq : s'.settings = s.settings
  template_eq : s'.template = s.template
  text?_eq : s'.text? = s.text?.revise edits
  contains : ∀ c, s.store.contains c = true → s'.store.contains c = true
  edited : ∀ edit ∈ edits, s'.store.contains edit.1 = true
  materialized : ∀ row, s.isMaterialized row = true → s'.isMaterialized row = true

theorem Revises.trans (h₁ : s.Revises edits s₁) (h₂ : s₁.Revises edits' s₂) :
    s.Revises (edits ++ edits') s₂ where
  furnished := h₂.furnished
  settings_eq := h₂.settings_eq.trans h₁.settings_eq
  template_eq := h₂.template_eq.trans h₁.template_eq
  text?_eq := by rw [h₂.text?_eq, h₁.text?_eq, Writing.revise_append]
  contains c hc := h₂.contains c (h₁.contains c hc)
  edited edit hedit := by
    rcases List.mem_append.mp hedit with hedit | hedit
    · exact h₂.contains _ (h₁.edited edit hedit)
    · exact h₂.edited edit hedit
  materialized row hrow := h₂.materialized row (h₁.materialized row hrow)

theorem SameCells.revises (h : SameCells s s') (hs' : s'.Furnished) : s.Revises [] s' where
  furnished := hs'
  settings_eq := h.settings_eq
  template_eq := h.template_eq
  text?_eq := h.text?_eq
  contains c hc := (h.contains_iff c).mpr hc
  edited edit hedit := (List.not_mem_nil hedit).elim
  materialized row hrow := by rwa [isMaterialized, h.materialized_eq]

namespace Furnished

theorem revises (h : s.Furnished) : s.Revises [] s :=
  (SameCells.refl s).revises h

theorem revises_upkeep (h : s.Furnished) (hupkeep : Upkeep s s') : s.Revises [] s' :=
  (h.upkeep hupkeep).2.revises (h.upkeep hupkeep).1

theorem revises_evaluate (h : s.Furnished) (c : Coord) : s.Revises [] (s.evaluate c) where
  furnished := h.evaluate c
  settings_eq := (h.evaluates c).toExtends.settings_eq
  template_eq := (h.evaluates c).toExtends.template_eq
  text?_eq := (h.evaluates c).toExtends.text?_eq
  contains := (h.evaluates c).toExtends.contains
  edited edit hedit := (List.not_mem_nil hedit).elim
  materialized row hrow := by
    rwa [isMaterialized, (h.evaluates c).toExtends.materialized_eq]

/-! ## Filling rows -/

theorem revises_fillCell (h : s.Furnished) (hc : s.inBounds c = true) :
    s.Revises [] (s.fillCell c) := by
  rcases fillCell_cases hc with heq | heq
  · rw [heq]
    exact h.revises
  · rw [heq]
    exact h.revises_evaluate c

/-- A cell for which the template has text is written once it has been filled. -/
theorem contains_fillCell (h : s.Furnished) (hc : s.templateText? c ≠ none) :
    (s.fillCell c).store.contains c = true := by
  obtain ⟨raw, htext⟩ := Option.ne_none_iff_exists'.mp hc
  cases hr : s.store.get? c with
  | some r =>
      have hcontains := (Store.contains_iff_get? _ _).mpr ⟨r, hr⟩
      exact (h.revises_fillCell (inBounds_of_templateText? htext)).contains c hcontains
  | none =>
      rw [fillCell_of_templateText? hr htext]
      refine contains_evaluate_self ?_
      rwa [text?_of_get?_eq_none hr]

/-- Filling the cells of a row up to a column writes what the template has for them. -/
theorem fold_fillCell (h : s.Furnished) {row : Nat} (hrow : row < s.settings.totalRows) {n : Nat}
    (hn : n ≤ s.settings.totalCols) :
    s.Revises [] (n.fold (fun col _ s => s.fillCell ⟨row, col⟩) s) ∧
      ∀ col < n, s.templateText? ⟨row, col⟩ ≠ none →
        (n.fold (fun col _ s => s.fillCell ⟨row, col⟩) s).store.contains ⟨row, col⟩ = true := by
  induction n with
  | zero => exact ⟨h.revises, fun col hcol => (Nat.not_lt_zero col hcol).elim⟩
  | succ n ih =>
      obtain ⟨hrevises, hwritten⟩ := ih (Nat.le_of_succ_le hn)
      rw [Nat.fold_succ]
      generalize n.fold (fun col _ s => s.fillCell ⟨row, col⟩) s = s₁ at *
      have hgrid : s₁.inBounds ⟨row, n⟩ = true := by
        rw [inBounds_congr hrevises.settings_eq]
        exact inBounds_iff.mpr ⟨hrow, Nat.lt_of_succ_le hn⟩
      have hfill := hrevises.furnished.revises_fillCell hgrid
      refine ⟨hrevises.trans hfill, fun col hcol htext => ?_⟩
      rcases Nat.lt_succ_iff_lt_or_eq.mp hcol with hcol | rfl
      · exact hfill.contains _ (hwritten col hcol htext)
      · apply hrevises.furnished.contains_fillCell
        rwa [templateText?_congr hrevises.settings_eq hrevises.template_eq]

theorem revises_fillRow (h : s.Furnished) {row : Nat} (hrow : row < s.settings.totalRows) :
    s.Revises [] (s.fillRow row) ∧ (s.fillRow row).RowWritten row := by
  obtain ⟨hrevises, hwritten⟩ : s.Revises [] (s.fillRow row) ∧ ∀ col < s.settings.totalCols,
      s.templateText? ⟨row, col⟩ ≠ none → (s.fillRow row).store.contains ⟨row, col⟩ = true :=
    h.fold_fillCell hrow (Nat.le_refl s.settings.totalCols)
  refine ⟨hrevises, .inr ?_⟩
  rintro ⟨_, col⟩ rfl htext
  rw [templateText?_congr hrevises.settings_eq hrevises.template_eq] at htext
  obtain ⟨raw, hraw⟩ := Option.ne_none_iff_exists'.mp htext
  exact hwritten col (inBounds_iff.mp (inBounds_of_templateText? hraw)).2 htext

/-- A row may be marked once it has been written. -/
theorem revises_markMaterialized (h : s.Furnished) {row : Nat} (hrow : s.RowWritten row) :
    s.Revises [] (s.markMaterialized row) := by
  have hmarked := @isMaterialized_markMaterialized_iff s row
  obtain ⟨materialized, heq⟩ := markMaterialized_eq s row
  rw [heq] at hmarked ⊢
  refine ⟨⟨{ h.sound with }, h.built, h.closed, h.queued, fun row' hrow' => ?_⟩, rfl, rfl, rfl,
    fun _ hc => hc, fun edit hedit => (List.not_mem_nil hedit).elim,
    fun row' hrow' => hmarked.mpr (.inr hrow')⟩
  rcases hmarked.mp hrow' with ⟨rfl, -⟩ | hrow'
  · exact hrow
  · exact h.rows row' hrow'

theorem revises_materializeRow (h : s.Furnished) {row : Nat}
    (hrow : row < s.settings.totalRows) :
    s.Revises [] (s.materializeRow row) ∧ (s.materializeRow row).isMaterialized row = true := by
  have hmark : ∀ {s' : Sheet}, row < s'.settings.totalRows →
      (s'.markMaterialized row).isMaterialized row = true := fun hrow =>
    isMaterialized_markMaterialized_iff.mpr (.inl ⟨rfl, hrow⟩)
  unfold Sheet.materializeRow
  split
  · next hmarked => exact ⟨h.revises, hmarked⟩
  · split
    · obtain ⟨hrevises, hwritten⟩ := h.revises_fillRow hrow
      exact ⟨hrevises.trans (hrevises.furnished.revises_markMaterialized hwritten),
        hmark (hrevises.settings_eq ▸ hrow)⟩
    · next hblank =>
      exact ⟨h.revises_markMaterialized (.inl (Bool.not_eq_true _ ▸ hblank)), hmark hrow⟩

theorem revises_materializeRows (h : s.Furnished) {first count : Nat}
    (hrows : ∀ i < count, first + i < s.settings.totalRows) :
    s.Revises [] (s.materializeRows first count) ∧
      ∀ i < count, (s.materializeRows first count).isMaterialized (first + i) = true := by
  induction count with
  | zero => exact ⟨h.revises, fun i hi => (Nat.not_lt_zero i hi).elim⟩
  | succ count ih =>
      obtain ⟨hrevises, hmarked⟩ := ih fun i hi => hrows i (Nat.lt_succ_of_lt hi)
      have hsucc : s.materializeRows first (count + 1) =
          (s.materializeRows first count).materializeRow (first + count) :=
        Nat.fold_succ ..
      rw [hsucc]
      generalize s.materializeRows first count = s₁ at *
      have hrow := hrows count (Nat.lt_succ_self count)
      rw [← hrevises.settings_eq] at hrow
      obtain ⟨hrevises', hmarked'⟩ := hrevises.furnished.revises_materializeRow hrow
      refine ⟨hrevises.trans hrevises', fun i hi => ?_⟩
      rcases Nat.lt_succ_iff_lt_or_eq.mp hi with hi | rfl
      · exact hrevises'.materialized _ (hmarked i hi)
      · exact hmarked'

end Furnished

/-! ## Edits -/

theorem closed_overwrite_evaluate (h : s.Coherent) (hs : s.Furnished) (raw : String)
    (hc : s.inBounds c = true) : ((s.overwrite c raw).evaluate c).ClosedRecords := by
  refine (h.evaluates_overwrite raw hc).closedRecords (h.sound_overwrite hc).stale_recorded ?_
  intro d p hd hdp hp
  -- The edited cell has a record now, and the texts of all others are as before.
  by_cases hpc : p = c
  · subst hpc
    exact Store.contains_setRaw_self _ p raw
  · rw [Writing.Refers, Writing.references_congr (written_overwrite hd)] at hdp
    rw [text?_overwrite hpc] at hp
    exact contains_overwrite (hs.closed d p hdp hp)

namespace Coherent

theorem furnished_overwrite_evaluate (h : s.Coherent) (hs : s.Furnished) (raw : String)
    (hc : s.inBounds c = true) : ((s.overwrite c raw).evaluate c).Furnished := by
  have hcontains : ∀ d, s.store.contains d = true →
      (s.overwrite c raw).store.contains d = true := fun d hd => contains_overwrite hd
  refine (h.evaluates_overwrite raw hc).furnished (h.built_overwrite raw hc)
    (closed_overwrite_evaluate h hs raw hc) ?_ ?_
  · exact fun d hd => hcontains d (hs.queued d hd)
  · exact fun row hrow => (hs.rows row hrow).mono rfl rfl hcontains

/-- Behind the edited cell the cascade starts over, which is a chore. -/
theorem chore_restart (s : Sheet) (c : Coord) : Chore s (s.restart c) := by
  refine .requeue fun d hd => ?_
  rw [Queue.toList_append, List.mem_append] at hd
  exact hd.imp_right fun hd => ⟨c, hd⟩

theorem materialized_beginEdit (h : s.Coherent) (hs' : s.beginEdit c raw = .ok s') :
    s'.materialized = s.materialized := by
  obtain ⟨hc, rfl⟩ := beginEdit_eq_ok hs'
  have hmaterialized : _ = s.materialized :=
    (h.evaluates_overwrite raw hc).toExtends.materialized_eq
  generalize (s.overwrite c raw).evaluate c = s₁ at *
  exact hmaterialized

theorem revises_beginEdit (h : s.Coherent) (hs : s.Furnished)
    (hs' : s.beginEdit c raw = .ok s') : s.Revises [(c, raw)] s' := by
  have htext := (h.beginEdit hs').text?_eq
  have hmaterialized := h.materialized_beginEdit hs'
  obtain ⟨hc, rfl⟩ := beginEdit_eq_ok hs'
  have hext := (h.evaluates_overwrite raw hc).toExtends
  have hsettings : _ = s.settings := hext.settings_eq
  have htemplate : _ = s.template := hext.template_eq
  have hcontains := fun d hd => hext.contains d (contains_overwrite hd)
  have hself := hext.contains c (contains_overwrite_iff.mpr (.inl rfl))
  have hfurnished := h.furnished_overwrite_evaluate hs raw hc
  generalize (s.overwrite c raw).evaluate c = s₁ at *
  refine ⟨(hfurnished.chore (chore_restart s₁ c)).1, hsettings, htemplate, ?_, hcontains, ?_, ?_⟩
  · funext d
    rw [htext]
    exact (Function.update_apply s.text? c (some raw) d).symm
  · intro edit hedit
    rw [List.mem_singleton.mp hedit]
    exact hself
  · intro row hrow
    rwa [isMaterialized, hmaterialized]

/-- After an edit the cells with a record are those from before and those with text that the
edited cell leads to, by the new text. -/
theorem contains_beginEdit_iff (h : s.Coherent) (hs : s.Furnished)
    (hs' : s.beginEdit c raw = .ok s') (d : Coord) :
    s'.store.contains d = true ↔ s.store.contains d = true ∨
      (s'.text? d ≠ none ∧ Relation.ReflTransGen s'.text?.Refers c d) := by
  obtain ⟨hc, rfl⟩ := beginEdit_eq_ok hs'
  have hev := h.evaluates_overwrite raw hc
  have hiff := contains_evaluate_iff (h.sound_overwrite hc) (h.known_overwrite raw)
    (closed_overwrite_evaluate h hs raw hc) d
  have hself : (s.overwrite c raw).text? c = some raw :=
    text?_of_raw? ((Store.raw?_setRaw _ c c raw).trans (if_pos rfl))
  rw [← hev.toExtends.text?_eq] at hiff hself
  generalize (s.overwrite c raw).evaluate c = s₁ at *
  change s₁.store.contains d = true ↔ s.store.contains d = true ∨
    (s₁.text? d ≠ none ∧ Relation.ReflTransGen s₁.text?.Refers c d)
  rw [hiff, contains_overwrite_iff]
  constructor
  · rintro ((rfl | hd) | hd)
    · exact .inr ⟨hself ▸ Option.some_ne_none raw, .refl⟩
    · exact .inl hd
    · exact .inr hd
  · exact Or.imp_left .inr

/-- The same edit of the same cells leaves the same cells. -/
theorem sameCells_beginEdit (h₁ : s₁.Coherent) (h₂ : s₂.Coherent) (hs₁ : s₁.Furnished)
    (hs₂ : s₂.Furnished) (hsame : SameCells s₁ s₂) (hs : s₁.beginEdit c raw = .ok s)
    (hs' : s₂.beginEdit c raw = .ok s') : SameCells s s' := by
  have hrevises₁ := h₁.revises_beginEdit hs₁ hs
  have hrevises₂ := h₂.revises_beginEdit hs₂ hs'
  have htext : s'.text? = s.text? := by
    rw [hrevises₂.text?_eq, hrevises₁.text?_eq, hsame.text?_eq]
  refine ⟨?_, ?_, ?_, htext, fun d => ?_⟩
  · rw [hrevises₂.settings_eq, hrevises₁.settings_eq, hsame.settings_eq]
  · rw [hrevises₂.template_eq, hrevises₁.template_eq, hsame.template_eq]
  · rw [h₂.materialized_beginEdit hs', h₁.materialized_beginEdit hs, hsame.materialized_eq]
  · rw [h₂.contains_beginEdit_iff hs₂ hs', h₁.contains_beginEdit_iff hs₁ hs, htext,
      hsame.contains_iff]

theorem revises_edit (h : s.Coherent) (hs : s.Furnished) {report : Report}
    (hs' : s.edit c raw = .ok (report, s')) : s.Revises [(c, raw)] s' := by
  obtain ⟨s₁, hbegin, rfl⟩ := edit_eq_ok hs'
  have hrevises := h.revises_beginEdit hs hbegin
  exact hrevises.trans (hrevises.furnished.revises_upkeep (upkeep_cascadeStep s₁ noLimit))

end Coherent

theorem text?_setRaw (s : Sheet) (c : Coord) (raw : String) :
    Sheet.text? { s with store := s.store.setRaw c raw } =
      Function.update s.text? c (some raw) := by
  funext d
  rw [Function.update_apply]
  split
  · next hd => exact text?_of_raw? ((Store.raw?_setRaw s.store c d raw).trans (if_pos hd))
  · next hd =>
    rw [text?, Store.raw?_setRaw, if_neg hd]
    rfl

theorem text?_rewrite (s : Sheet) (edits : List (Coord × String)) :
    (s.rewrite edits).text? = s.text?.revise edits := by
  induction edits generalizing s with
  | nil => rfl
  | cons edit rest ih =>
      obtain ⟨c, raw⟩ := edit
      have hrest := ih { s with store := s.store.setRaw c raw }
      rw [text?_setRaw] at hrest
      exact hrest

namespace Coherent

theorem revises_editMany (h : s.Coherent) (hs : s.Furnished) {report : Report}
    (hs' : s.editMany edits = .ok (report, s')) : s.Revises edits s' := by
  have hcoherent := (h.editMany hs').coherent
  obtain ⟨hfresh, hqueue⟩ := h.settled_editMany hs'
  obtain ⟨hedits, rfl⟩ := editMany_eq_ok hs'
  obtain ⟨htidy, hsound⟩ := h.sound_rewrite hedits
  have hext := extends_recalculateAll (s := (s.rewrite edits).forget) htidy hsound
  obtain ⟨-, -, hwritten⟩ := foldl_setRaw h.sound.tidy h.sound.inGrid hedits
  have hcontains := fun c hc => hext.contains c (hwritten c (.inl hc))
  have hmaterialized : ∀ row, (s.rewrite edits).forget.recalculateAll.2.isMaterialized row =
      s.isMaterialized row := by
    intro row
    rw [isMaterialized, hext.materialized_eq]
    rfl
  refine ⟨.of_current hcoherent ?_ hqueue ?_, hext.settings_eq, hext.template_eq, ?_, hcontains,
    ?_, ?_⟩
  · exact fun c hc => (hcoherent.known hc).resolve_left (hfresh c)
  · intro row hrow
    rw [hmaterialized] at hrow
    exact (hs.rows row hrow).mono hext.settings_eq hext.template_eq hcontains
  · exact hext.text?_eq.trans (text?_rewrite s edits)
  · exact fun edit hedit => hext.contains _ (hwritten _ (.inr ⟨edit.2, hedit⟩))
  · exact fun row hrow => (hmaterialized row).trans hrow

end Coherent

end Sheet

end LiveSheet
