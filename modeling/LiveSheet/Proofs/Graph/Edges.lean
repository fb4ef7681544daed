import LiveSheet.Graph

/-! # Edges

A graph keeps every edge twice, once under each of its ends. Giving a cell new precedents
changes the edges into this cell and no others, provided that the two tables agree before; and
they agree afterwards. -/

namespace LiveSheet.Graph

/-- Whether a table of sets holds `cell` in the set of `key`. -/
def Lists (sets : Std.HashMap Coord CoordSet) (key cell : Coord) : Prop :=
  ∃ set, sets[key]? = some set ∧ cell ∈ set

theorem not_lists_empty (key cell : Coord) : ¬Lists ∅ key cell := by
  rintro ⟨set, hset, -⟩
  rw [Std.HashMap.getElem?_empty] at hset
  cases hset

theorem lists_retract (sets : Std.HashMap Coord CoordSet) (p c key cell : Coord) :
    Lists (retract sets p c) key cell ↔ Lists sets key cell ∧ ¬(key = p ∧ cell = c) := by
  simp only [Lists, retract, Std.HashMap.getElem?_alter, beq_iff_eq]
  by_cases hkey : p = key
  · subst hkey
    cases hold : sets[p]? with
    | none => simp
    | some set =>
        -- an emptied set is dropped, which loses no member
        have hmem : cell ∈ set.erase c ↔ cell ∈ set ∧ cell ≠ c := by
          rw [Std.TreeSet.mem_erase, ne_eq, Std.LawfulEqOrd.compare_eq_iff_eq, and_comm,
            eq_comm (a := c)]
        by_cases hempty : (set.erase c).isEmpty = true
        · have hnot := Std.TreeSet.isEmpty_iff_forall_not_mem.mp hempty cell
          simp only [if_true, hempty, reduceCtorEq, false_and, exists_const, Option.some.injEq,
            exists_eq_left', true_and, false_iff]
          exact fun h => hnot (hmem.mpr h)
        · simp only [if_true, hempty, Bool.false_eq_true, if_false, Option.some.injEq,
            exists_eq_left', true_and]
          exact hmem
  · rw [if_neg hkey]
    simp [Ne.symm hkey]

theorem lists_attach (sets : Std.HashMap Coord CoordSet) (p c key cell : Coord) :
    Lists (attach sets p c) key cell ↔ Lists sets key cell ∨ (key = p ∧ cell = c) := by
  simp only [Lists, attach, Std.HashMap.getElem?_alter, beq_iff_eq]
  by_cases hkey : p = key
  · subst hkey
    cases hold : sets[p]? with
    | none =>
        simp [Std.TreeSet.mem_insert, Std.TreeSet.not_mem_emptyc, eq_comm (a := c)]
    | some set =>
        simp [Std.TreeSet.mem_insert, or_comm, eq_comm (a := c)]
  · rw [if_neg hkey]
    simp [Ne.symm hkey]

theorem lists_foldl_retract (cells : List Coord) (sets : Std.HashMap Coord CoordSet)
    (c key cell : Coord) :
    Lists (cells.foldl (fun sets p => retract sets p c) sets) key cell ↔
      Lists sets key cell ∧ ¬(key ∈ cells ∧ cell = c) := by
  induction cells generalizing sets with
  | nil => simp
  | cons p rest ih =>
      rw [List.foldl_cons, ih, lists_retract, List.mem_cons, and_assoc, ← not_or,
        ← or_and_right]

theorem lists_foldl_attach (cells : List Coord) (sets : Std.HashMap Coord CoordSet)
    (c key cell : Coord) :
    Lists (cells.foldl (fun sets p => attach sets p c) sets) key cell ↔
      Lists sets key cell ∨ (key ∈ cells ∧ cell = c) := by
  induction cells generalizing sets with
  | nil => simp
  | cons p rest ih =>
      rw [List.foldl_cons, ih, lists_attach, List.mem_cons, or_assoc, ← or_and_right]

theorem mem_dependents_iff (g : Graph) (p d : Coord) :
    d ∈ g.dependents p ↔ Lists g.dependentSets p d := by
  unfold dependents Lists
  cases g.dependentSets[p]? with
  | none => simp
  | some set => simp [Std.TreeSet.mem_toList]

theorem mem_precedents_iff (g : Graph) (p d : Coord) :
    p ∈ g.precedents d ↔ Lists g.precedentSets d p := by
  unfold precedents precedents? Lists
  cases g.precedentSets[d]? with
  | none => simp [Std.TreeSet.not_mem_emptyc]
  | some set => simp

/-- Both tables hold the same edges. -/
def Converse (g : Graph) : Prop :=
  ∀ p d, d ∈ g.dependents p ↔ p ∈ g.precedents d

theorem not_mem_precedents_empty (p d : Coord) : p ∉ (∅ : Graph).precedents d := by
  rw [mem_precedents_iff]
  exact not_lists_empty d p

theorem converse_empty : (∅ : Graph).Converse := by
  intro p d
  rw [mem_dependents_iff, mem_precedents_iff]
  exact iff_of_false (not_lists_empty p d) (not_lists_empty d p)

theorem mem_precedents_setPrecedents (g : Graph) (c : Coord) (set : CoordSet) (p d : Coord) :
    p ∈ (g.setPrecedents c set).precedents d ↔
      if d = c then p ∈ set else p ∈ g.precedents d := by
  rw [mem_precedents_iff, mem_precedents_iff]
  unfold setPrecedents Lists
  by_cases hempty : set.isEmpty = true
  · have hnot := Std.TreeSet.isEmpty_iff_forall_not_mem.mp hempty p
    rw [if_pos hempty, Std.HashMap.getElem?_erase]
    by_cases hd : d = c
    · simp [hd, hnot]
    · simp [hd, Ne.symm hd]
  · rw [if_neg hempty, Std.HashMap.getElem?_insert]
    by_cases hd : d = c
    · simp [hd]
    · simp [hd, Ne.symm hd]

theorem Converse.mem_dependents_setPrecedents {g : Graph} (h : g.Converse) (c : Coord)
    (set : CoordSet) (p d : Coord) :
    d ∈ (g.setPrecedents c set).dependents p ↔
      if d = c then p ∈ set else d ∈ g.dependents p := by
  rw [mem_dependents_iff]
  simp only [setPrecedents, Std.TreeSet.foldl_eq_foldl_toList, lists_foldl_attach,
    lists_foldl_retract, Std.TreeSet.mem_toList, ← mem_dependents_iff]
  by_cases hd : d = c
  · have hold := h p c
    subst hd
    simp only [hold, and_true, and_not_self_iff, false_or, if_true]
  · simp [hd]

theorem Converse.setPrecedents {g : Graph} (h : g.Converse) (c : Coord) (set : CoordSet) :
    (g.setPrecedents c set).Converse := by
  intro p d
  rw [h.mem_dependents_setPrecedents, mem_precedents_setPrecedents, h p d]

theorem mem_precedents_removeCell (g : Graph) (c p d : Coord) :
    p ∈ (g.removeCell c).precedents d ↔ d ≠ c ∧ p ∈ g.precedents d := by
  rw [removeCell, mem_precedents_setPrecedents]
  by_cases hd : d = c
  · simp [hd, Std.TreeSet.not_mem_emptyc]
  · simp [hd]

end LiveSheet.Graph
