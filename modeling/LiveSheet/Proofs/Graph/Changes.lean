import LiveSheet.Proofs.BlockGrid.Bands
import LiveSheet.Proofs.Graph.Edges

/-! # Graphs that are changed again and again

However a graph is changed, a cell has the precedents that it was given last, and it is a dependent
of these cells and of no others. No table keeps a set that has become empty, and the edges that are
counted are the pairs of a cell and one of its precedents. -/

namespace LiveSheet.Graph

/-! ## Tables without empty sets -/

/-- No key has an empty set. -/
def Pruned (sets : Std.HashMap Coord CoordSet) : Prop :=
  ∀ (key : Coord) (set : CoordSet), sets[key]? = some set → set.isEmpty = false

theorem pruned_empty : Pruned ∅ := by
  intro key set hset
  rw [Std.HashMap.getElem?_empty] at hset
  cases hset

variable {sets : Std.HashMap Coord CoordSet}

theorem Pruned.retract (h : Pruned sets) (p c : Coord) : Pruned (retract sets p c) := by
  intro key set hset
  rw [Graph.retract, Std.HashMap.getElem?_alter] at hset
  split at hset
  · -- Without its last member the set of `p` is dropped.
    cases hold : sets[p]? with
    | none =>
        rw [hold] at hset
        cases hset
    | some old =>
        rw [hold] at hset
        dsimp only at hset
        split at hset
        · cases hset
        · next hmembers =>
          cases hset
          exact Bool.not_eq_true _ ▸ hmembers
  · exact h key set hset

theorem Pruned.attach (h : Pruned sets) (p c : Coord) : Pruned (attach sets p c) := by
  intro key set hset
  rw [Graph.attach, Std.HashMap.getElem?_alter] at hset
  split at hset
  · cases hset
    exact Std.TreeSet.isEmpty_insert
  · exact h key set hset

/-- Changing the sets of some cells, one after the other. -/
theorem Pruned.foldl {f : Std.HashMap Coord CoordSet → Coord → Std.HashMap Coord CoordSet}
    (hf : ∀ sets p, Pruned sets → Pruned (f sets p)) (h : Pruned sets) (cells : List Coord) :
    Pruned (cells.foldl f sets) := by
  induction cells generalizing sets with
  | nil => exact h
  | cons p rest ih => exact ih (hf sets p h)

/-! ## One change -/

theorem precedents?_setPrecedents (g : Graph) (c : Coord) (set : CoordSet) (d : Coord) :
    (g.setPrecedents c set).precedents? d =
      if d = c then (some set).filter (!·.isEmpty) else g.precedents? d := by
  unfold precedents? setPrecedents
  by_cases hempty : set.isEmpty = true
  · rw [if_pos hempty, Std.HashMap.getElem?_erase]
    by_cases hd : d = c
    · simp [hd, hempty, Option.filter_some]
    · simp [hd, Ne.symm hd]
  · rw [if_neg hempty, Std.HashMap.getElem?_insert]
    by_cases hd : d = c
    · simp [hd, hempty, Option.filter_some]
    · simp [hd, Ne.symm hd]

/-- Both tables hold the same edges, and neither has an empty set. -/
structure Exact (g : Graph) : Prop where
  converse : g.Converse
  precedentSets : Pruned g.precedentSets
  dependentSets : Pruned g.dependentSets

theorem exact_empty : (∅ : Graph).Exact :=
  ⟨converse_empty, pruned_empty, pruned_empty⟩

variable {g : Graph}

theorem Exact.setPrecedents (h : g.Exact) (c : Coord) (set : CoordSet) :
    (g.setPrecedents c set).Exact where
  converse := h.converse.setPrecedents c set
  precedentSets := by
    intro key set' hset
    change (g.setPrecedents c set).precedents? key = some set' at hset
    rw [precedents?_setPrecedents] at hset
    split at hset
    · obtain ⟨heq, hmembers⟩ := Option.filter_eq_some_iff.mp hset
      cases heq
      exact Bool.not_eq_true' _ ▸ hmembers
    · exact h.precedentSets key set' hset
  dependentSets := by
    simp only [Graph.setPrecedents, Std.TreeSet.foldl_eq_foldl_toList]
    refine Pruned.foldl (fun sets p hsets => hsets.attach p c) ?_ _
    exact Pruned.foldl (fun sets p hsets => hsets.retract p c) h.dependentSets _

/-! ## Runs of changes -/

/-- What can be done to a graph. -/
inductive Change where
  /-- Gives a cell a set of precedents in place of those that it has. -/
  | give (cell : Coord) (set : CoordSet)
  | remove (cell : Coord)
  | clear

def perform (g : Graph) : Change → Graph
  | .give cell set => g.setPrecedents cell set
  | .remove cell => g.removeCell cell
  | .clear => ∅

/-- The graph that changes lead to, one after the other, from an empty one. -/
def ofChanges (changes : List Change) : Graph :=
  changes.foldl perform ∅

/-- The set that a cell was given last, if that was after the last time that all was cleared. The
changes come with the latest first. To remove a cell is to give it the empty set. -/
def lastGiven? (d : Coord) : List Change → Option CoordSet
  | [] => none
  | .give cell set :: older => if d = cell then some set else lastGiven? d older
  | .remove cell :: older => if d = cell then some ∅ else lastGiven? d older
  | .clear :: _ => none

theorem Exact.perform (h : g.Exact) (change : Change) : (g.perform change).Exact := by
  cases change with
  | give cell set => exact h.setPrecedents cell set
  | remove cell => exact h.setPrecedents cell ∅
  | clear => exact exact_empty

theorem ofChanges_append (changes : List Change) (change : Change) :
    ofChanges (changes ++ [change]) = (ofChanges changes).perform change :=
  List.foldl_append

theorem exact_ofChanges (changes : List Change) : (ofChanges changes).Exact := by
  induction changes using List.reverseRecOn with
  | nil => exact exact_empty
  | append_singleton changes change ih =>
      rw [ofChanges_append]
      exact ih.perform change

theorem precedents?_ofChanges (changes : List Change) (d : Coord) :
    (ofChanges changes).precedents? d =
      (lastGiven? d changes.reverse).filter (!·.isEmpty) := by
  induction changes using List.reverseRecOn with
  | nil => exact Std.HashMap.getElem?_empty
  | append_singleton changes change ih =>
      rw [ofChanges_append, List.reverse_append, List.reverse_singleton, List.singleton_append]
      cases change with
      | give cell set =>
          rw [perform, precedents?_setPrecedents, lastGiven?, ih]
          split <;> rfl
      | remove cell =>
          rw [perform, removeCell, precedents?_setPrecedents, lastGiven?, ih]
          split <;> rfl
      | clear => exact Std.HashMap.getElem?_empty

/-! ## Counting -/

/-- The edges as pairs of a precedent and its dependent. -/
def edges (g : Graph) : List (Coord × Coord) :=
  g.precedentSets.toList.flatMap fun (d, set) => set.toList.map fun p => (p, d)

theorem mem_edges_iff (g : Graph) (p d : Coord) : (p, d) ∈ g.edges ↔ p ∈ g.precedents d := by
  simp only [edges, List.mem_flatMap, List.mem_map, Prod.exists, Prod.mk.injEq,
    Std.HashMap.mem_toList_iff_getElem?_eq_some, Std.TreeSet.mem_toList, mem_precedents_iff, Lists]
  constructor
  · rintro ⟨d, set, hset, p, hp, rfl, rfl⟩
    exact ⟨set, hset, hp⟩
  · rintro ⟨set, hset, hp⟩
    exact ⟨d, set, hset, p, hp, rfl, rfl⟩

/-- No edge is listed twice: a cell has one set of precedents, and the set lists each of them
once. -/
theorem nodup_edges (g : Graph) : g.edges.Nodup := by
  rw [edges, List.nodup_flatMap]
  constructor
  · rintro ⟨d, set⟩ -
    refine List.pairwise_map.mpr (set.distinct_toList.imp fun {p q} hne heq => hne ?_)
    rw [(Prod.mk.injEq ..).mp heq |>.1]
    exact Std.ReflCmp.compare_self
  · refine g.precedentSets.distinct_keys_toList.imp fun {x y} hne edge hx hy => ?_
    obtain ⟨p, -, rfl⟩ := List.mem_map.mp hx
    obtain ⟨q, -, heq⟩ := List.mem_map.mp hy
    rw [(Prod.mk.injEq ..).mp heq |>.2, beq_self_eq_true] at hne
    cases hne

theorem edgeCount_eq_length (g : Graph) : g.edgeCount = g.edges.length := by
  rw [edgeCount, Std.HashMap.fold_eq_foldl_toList, edges, List.length_flatMap, List.sum_eq_foldl,
    List.foldl_map]
  simp only [List.length_map, Std.TreeSet.length_toList]

theorem edgeCount_eq_ncard (g : Graph) :
    {e : Coord × Coord | e.1 ∈ g.precedents e.2}.Finite ∧
      g.edgeCount = {e : Coord × Coord | e.1 ∈ g.precedents e.2}.ncard := by
  have hedges : {e : Coord × Coord | e.1 ∈ g.precedents e.2} = ↑g.edges.toFinset := by
    ext ⟨p, d⟩
    rw [List.coe_toFinset, Set.mem_ofPred_eq, Set.mem_ofPred_eq, mem_edges_iff]
  rw [hedges, Set.ncard_coe_finset, List.toFinset_card_of_nodup g.nodup_edges]
  exact ⟨Finset.finite_toSet _, g.edgeCount_eq_length⟩

/-- The dependents of a cell are listed in row-major order, each of them once. -/
theorem ascending_dependents (g : Graph) (p : Coord) : Coord.Ascending (g.dependents p) := by
  unfold dependents
  split
  · exact Std.TreeSet.ordered_toList
  · exact List.Pairwise.nil

/-- The tables of a graph tell the same of every edge, however the graph was changed. A cell has the
precedents that it was given last since all was cleared, and none is kept for it if these are none.
It is a dependent of these cells and of no others, and the dependents of a cell come in strictly
increasing row-major order. Neither table holds an empty set, and what is counted are the pairs of a
cell and one of its precedents. -/
theorem tables_exact (changes : List Change) :
    let g := ofChanges changes
    (∀ d, g.precedents? d = (lastGiven? d changes.reverse).filter (!·.isEmpty)) ∧
      (∀ p d, d ∈ g.dependents p ↔ p ∈ g.precedents d) ∧
      (∀ p, Coord.Ascending (g.dependents p)) ∧
      (Pruned g.precedentSets ∧ Pruned g.dependentSets) ∧
      {e : Coord × Coord | e.1 ∈ g.precedents e.2}.Finite ∧
      g.edgeCount = {e : Coord × Coord | e.1 ∈ g.precedents e.2}.ncard := by
  intro g
  have h : g.Exact := exact_ofChanges changes
  exact ⟨precedents?_ofChanges changes, h.converse, g.ascending_dependents,
    ⟨h.precedentSets, h.dependentSets⟩, g.edgeCount_eq_ncard⟩

end LiveSheet.Graph
