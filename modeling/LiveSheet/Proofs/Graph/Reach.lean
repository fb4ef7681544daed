import LiveSheet.Proofs.Graph.Edges
import Mathlib.Data.Finset.Card
import Mathlib.Logic.Relation

/-! # Affected cells are the reachable cells

The search keeps apart the layers that are finished and the layer in hand. What it has seen is
what these hold; every finished cell has had its dependents looked at. A layer is never empty
before the search ends, and each of its cells has precedents and is new, so the budget lasts
until the finished layers are closed under dependents. -/

namespace LiveSheet.Graph

/-- The formula of `b` refers to `a`. -/
def Edge (g : Graph) (a b : Coord) : Prop :=
  b ∈ g.dependents a

theorem mem_foldl_pick (cells : List Coord) (found : List Coord × Std.HashSet Coord)
    (x : Coord) :
    (x ∈ (cells.foldl pick found).1 ↔ x ∈ found.1 ∨ (x ∈ cells ∧ x ∉ found.2)) ∧
      (x ∈ (cells.foldl pick found).2 ↔ x ∈ found.2 ∨ x ∈ cells) := by
  induction cells generalizing found with
  | nil => simp
  | cons c rest ih =>
      rw [List.foldl_cons, (ih _).1, (ih _).2, pick, List.mem_cons]
      by_cases hseen : c ∈ found.2
      · rw [if_pos (Std.HashSet.mem_iff_contains.mp hseen)]
        by_cases hx : x = c
        · simp [hx, hseen]
        · simp [hx]
      · rw [if_neg (mt Std.HashSet.mem_iff_contains.mpr hseen)]
        simp only [List.mem_cons, Std.HashSet.mem_insert, beq_iff_eq]
        by_cases hx : x = c
        · simp [hx, hseen]
        · simp [hx, Ne.symm hx]

theorem mem_unseen_fst_iff (seen : Std.HashSet Coord) (cells : List Coord) (x : Coord) :
    x ∈ (unseen seen cells).1 ↔ x ∈ cells ∧ x ∉ seen := by
  rw [unseen, List.mem_reverse, (mem_foldl_pick cells ([], seen) x).1]
  simp

theorem mem_unseen_snd_iff (seen : Std.HashSet Coord) (cells : List Coord) (x : Coord) :
    x ∈ (unseen seen cells).2 ↔ x ∈ seen ∨ x ∈ cells :=
  (mem_foldl_pick cells ([], seen) x).2

/-- The cells that have precedents. -/
def formulas (g : Graph) : Finset Coord :=
  g.precedentSets.keys.toFinset

theorem card_formulas_le (g : Graph) : g.formulas.card ≤ g.precedentSets.size := by
  rw [← Std.HashMap.length_keys]
  exact List.toFinset_card_le _

theorem mem_formulas_of_edge {g : Graph} (h : g.Converse) {a b : Coord} (hab : g.Edge a b) :
    b ∈ g.formulas := by
  obtain ⟨set, hset, -⟩ := (mem_precedents_iff g a b).mp ((h a b).mp hab)
  rw [formulas, List.mem_toFinset, Std.HashMap.mem_keys]
  exact Std.HashMap.mem_iff_isSome_getElem?.mpr (by simp [hset])

/-- A search for what depends on `c`, between two layers. -/
structure Search (g : Graph) (c : Coord) (done : List (List Coord))
    (seen : Std.HashSet Coord) (layer : List Coord) : Prop where
  seen_iff : ∀ x, x ∈ seen ↔ x ∈ done.flatten ∨ x ∈ layer
  fresh : ∀ x ∈ layer, x ∉ done.flatten
  reached : ∀ x ∈ seen, Relation.TransGen g.Edge c x
  first : ∀ x, g.Edge c x → x ∈ seen
  closed : ∀ x ∈ done.flatten, ∀ y, g.Edge x y → y ∈ seen

theorem Search.start (g : Graph) (c : Coord) :
    Search g c [] (unseen ∅ (g.dependents c)).2 (unseen ∅ (g.dependents c)).1 where
  seen_iff x := by simp [mem_unseen_fst_iff, mem_unseen_snd_iff]
  fresh := by simp
  reached x hx := by
    rw [mem_unseen_snd_iff] at hx
    exact .single (hx.resolve_left Std.HashSet.not_mem_empty)
  first x hx := (mem_unseen_snd_iff _ _ _).mpr (.inr hx)
  closed := by simp

/-- Looking at the dependents of a layer finishes it. -/
theorem Search.next {g : Graph} {c : Coord} {done : List (List Coord)}
    {seen : Std.HashSet Coord} {layer : List Coord} (h : Search g c done seen layer) :
    Search g c (layer :: done) (unseen seen (layer.flatMap g.dependents)).2
      (unseen seen (layer.flatMap g.dependents)).1 where
  seen_iff x := by
    rw [mem_unseen_snd_iff, mem_unseen_fst_iff, h.seen_iff, List.flatten_cons, List.mem_append]
    by_cases hlayer : x ∈ layer
    · simp [hlayer]
    · by_cases hdone : x ∈ done.flatten <;> simp [hlayer, hdone]
  fresh x hx := by
    rw [mem_unseen_fst_iff, h.seen_iff, not_or] at hx
    rw [List.flatten_cons, List.mem_append, not_or]
    exact hx.2.symm
  reached x hx := by
    rcases (mem_unseen_snd_iff _ _ _).mp hx with hx | hx
    · exact h.reached x hx
    · obtain ⟨a, ha, hax⟩ := List.mem_flatMap.mp hx
      exact (h.reached a ((h.seen_iff a).mpr (.inr ha))).tail hax
  first x hx := (mem_unseen_snd_iff _ _ _).mpr (.inl (h.first x hx))
  closed x hx y hxy := by
    rw [mem_unseen_snd_iff]
    rcases List.mem_append.mp (List.flatten_cons ▸ hx) with hx | hx
    · exact .inr (List.mem_flatMap.mpr ⟨x, hx, hxy⟩)
    · exact .inl (h.closed x hx y hxy)

/-- Every cell of the layer in hand is a formula that no finished layer has. -/
theorem Search.mem_formulas {g : Graph} (hg : g.Converse) {c : Coord}
    {done : List (List Coord)} {seen : Std.HashSet Coord} {layer : List Coord}
    (h : Search g c done seen layer) {y : Coord} (hy : y ∈ layer) :
    y ∈ g.formulas \ done.flatten.toFinset := by
  rw [Finset.mem_sdiff, List.mem_toFinset]
  refine ⟨?_, h.fresh y hy⟩
  obtain ⟨a, -, hay⟩ := Relation.TransGen.tail'_iff.mp
    (h.reached y ((h.seen_iff y).mpr (.inr hy)))
  exact mem_formulas_of_edge hg hay

/-- A search without a layer in hand has found everything. -/
theorem Search.mem_done_iff {g : Graph} {c : Coord} {done : List (List Coord)}
    {seen : Std.HashSet Coord} (h : Search g c done seen []) (x : Coord) :
    x ∈ done.reverse.flatten ↔ Relation.TransGen g.Edge c x := by
  have hseen : ∀ y, y ∈ seen ↔ y ∈ done.flatten := by simpa using h.seen_iff
  rw [show x ∈ done.reverse.flatten ↔ x ∈ done.flatten by simp [List.mem_flatten]]
  constructor
  · intro hx
    exact h.reached x ((hseen x).mpr hx)
  · intro hpath
    induction hpath with
    | single hcx => exact (hseen _).mp (h.first _ hcx)
    | tail _ hab ih => exact (hseen _).mp (h.closed _ ih _ hab)

/-- The search ends without a layer in hand, and what every layer keeps holds in the end. -/
theorem Search.exists_end {g : Graph} (hg : g.Converse) {c : Coord}
    {motive : List (List Coord) → Std.HashSet Coord → List Coord → Prop}
    (hnext : ∀ {done seen layer}, Search g c done seen layer → motive done seen layer →
      motive (layer :: done) (unseen seen (layer.flatMap g.dependents)).2
        (unseen seen (layer.flatMap g.dependents)).1)
    {budget : Nat} {done : List (List Coord)} {seen : Std.HashSet Coord} {layer : List Coord}
    (h : Search g c done seen layer) (hmotive : motive done seen layer)
    (hbudget : (g.formulas \ done.flatten.toFinset).card ≤ budget) :
    ∃ done' seen', layersOnto g done budget seen layer = done'.reverse ∧
      Search g c done' seen' [] ∧ motive done' seen' [] := by
  -- The budget bounds the formulas in no finished layer, and each layer finishes some.
  induction budget generalizing done seen layer with
  | zero =>
      have hnone := Finset.card_eq_zero.mp (Nat.le_zero.mp hbudget)
      have hempty : layer = [] := List.eq_nil_iff_forall_not_mem.mpr fun y hy => by
        simpa [hnone] using h.mem_formulas hg hy
      subst hempty
      exact ⟨done, seen, rfl, h, hmotive⟩
  | succ budget ih =>
      unfold layersOnto
      split
      · next hempty =>
        cases List.isEmpty_iff.mp hempty
        exact ⟨done, seen, rfl, h, hmotive⟩
      · next hne =>
        obtain ⟨y, hy⟩ := List.exists_mem_of_ne_nil layer (mt List.isEmpty_iff.mpr hne)
        -- The layer takes at least one formula out of those that are not finished.
        have hlt : (g.formulas \ (layer :: done).flatten.toFinset).card <
            (g.formulas \ done.flatten.toFinset).card := by
          refine Finset.card_lt_card
            ((Finset.ssubset_iff_of_subset ?_).mpr ⟨y, h.mem_formulas hg hy, ?_⟩)
          · refine Finset.sdiff_subset_sdiff subset_rfl ?_
            intro z hz
            simp only [List.mem_toFinset, List.flatten_cons, List.mem_append] at hz ⊢
            exact .inr hz
          · simp [hy]
        exact ih h.next (hnext h hmotive) (by omega)

/-- The layers of the affected cells, and what holds when the last of them is finished. -/
theorem Search.exists_layers {g : Graph} (hg : g.Converse) (c : Coord)
    {motive : List (List Coord) → Std.HashSet Coord → List Coord → Prop}
    (hstart : motive [] (unseen ∅ (g.dependents c)).2 (unseen ∅ (g.dependents c)).1)
    (hnext : ∀ {done seen layer}, Search g c done seen layer → motive done seen layer →
      motive (layer :: done) (unseen seen (layer.flatMap g.dependents)).2
        (unseen seen (layer.flatMap g.dependents)).1) :
    ∃ done seen, g.affectedBy c = done.reverse.flatten ∧ Search g c done seen [] ∧
      motive done seen [] := by
  obtain ⟨done, seen, hlayers, hend, hmotive⟩ :=
    Search.exists_end hg hnext (Search.start g c) hstart (by simpa using g.card_formulas_le)
  exact ⟨done, seen, congrArg List.flatten hlayers, hend, hmotive⟩

/-- The affected cells are those that depend on the cell, directly or through others. -/
theorem mem_affectedBy_iff {g : Graph} (hg : g.Converse) (c x : Coord) :
    x ∈ g.affectedBy c ↔ Relation.TransGen g.Edge c x := by
  obtain ⟨done, seen, haffected, hend, -⟩ :=
    Search.exists_layers hg c (motive := fun _ _ _ => True) trivial fun _ _ => trivial
  rw [haffected]
  exact hend.mem_done_iff x

end LiveSheet.Graph
