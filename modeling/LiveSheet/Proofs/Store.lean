import LiveSheet.Proofs.BlockGrid.Bands
import LiveSheet.Store

/-! # Stores as finite maps

Writing raw text replaces the record of one cell, writing a value changes the value of one
record, and neither touches any other cell. A store lists its cells in row-major order, whatever
order its tables have them in, so the texts decide the lists. -/

namespace LiveSheet

theorem Coord.mem_sorted_iff (cells : List Coord) (c : Coord) : c ∈ sorted cells ↔ c ∈ cells :=
  List.mem_mergeSort

theorem Coord.mem_erase_iff (cells : Std.HashSet Coord) (c d : Coord) :
    d ∈ cells.erase c ↔ d ∈ cells ∧ d ≠ c := by
  rw [Std.HashSet.mem_erase, beq_eq_false_iff_ne, ne_comm, and_comm]

/-- Sorting forgets in which order the cells came. -/
theorem Coord.sorted_congr {cells cells' : List Coord} (hnodup : cells.Nodup)
    (hnodup' : cells'.Nodup) (h : ∀ c, c ∈ sorted cells' ↔ c ∈ sorted cells) :
    sorted cells' = sorted cells := by
  simp only [mem_sorted_iff] at h
  have hsorted : ∀ cells : List Coord, (sorted cells).Pairwise fun a b => a.rowMajor b = true :=
    List.pairwise_mergeSort (fun _ _ _ => rowMajor_trans) rowMajor_total
  have hperm : (sorted cells').Perm (sorted cells) :=
    (List.mergeSort_perm _ _).trans
      (((List.perm_ext_iff_of_nodup hnodup' hnodup).mpr h).trans (List.mergeSort_perm _ _).symm)
  refine hperm.eq_of_pairwise (fun a b _ _ hab hba => ?_) (hsorted cells') (hsorted cells)
  exact Std.LawfulEqOrd.eq_of_compare (Std.OrientedCmp.isLE_antisymm hab hba)

namespace Store

@[simp] theorem get?_empty (c : Coord) : (∅ : Store).get? c = none :=
  BlockGrid.get?_empty c

theorem get?_setRaw (s : Store) (c d : Coord) (raw : String) :
    (s.setRaw c raw).get? d = if d = c then some (.ofRaw raw) else s.get? d :=
  BlockGrid.get?_insert _ _ _ _

theorem get?_setValue (s : Store) (c d : Coord) (value : CellValue) :
    (s.setValue c value).get? d =
      if d = c then (s.get? d).map fun r => { r with value } else s.get? d :=
  BlockGrid.get?_modify _ _ _ _

theorem contains_iff_get? (s : Store) (c : Coord) :
    s.contains c = true ↔ ∃ r, s.get? c = some r :=
  BlockGrid.contains_eq_true_iff _ _

theorem contains_eq_false_iff (s : Store) (c : Coord) :
    s.contains c = false ↔ s.get? c = none := by
  rw [← Bool.not_eq_true, contains_iff_get?, not_exists, Option.eq_none_iff_forall_ne_some]

theorem get?_eq_none_of_not_contains {s : Store} {c : Coord} (h : ¬s.contains c = true) :
    s.get? c = none := by
  rw [← contains_eq_false_iff, ← Bool.not_eq_true]
  exact h

theorem raw?_eq_some_iff (s : Store) (c : Coord) (raw : String) :
    s.raw? c = some raw ↔ ∃ r, s.get? c = some r ∧ r.raw = raw := by
  rw [raw?, Option.map_eq_some_iff]

theorem raw?_eq_none_iff (s : Store) (c : Coord) : s.raw? c = none ↔ s.get? c = none := by
  rw [raw?, Option.map_eq_none_iff]

theorem contains_setRaw_iff {s : Store} {c d : Coord} {raw : String} :
    (s.setRaw c raw).contains d = true ↔ d = c ∨ s.contains d = true := by
  rw [contains_iff_get?, contains_iff_get?, get?_setRaw]
  by_cases hd : d = c
  · simp [hd]
  · simp [hd]

theorem contains_setRaw {s : Store} {c d : Coord} {raw : String} (h : s.contains d = true) :
    (s.setRaw c raw).contains d = true :=
  contains_setRaw_iff.mpr (.inr h)

theorem contains_setRaw_self (s : Store) (c : Coord) (raw : String) :
    (s.setRaw c raw).contains c = true :=
  contains_setRaw_iff.mpr (.inl rfl)

theorem raw?_setRaw (s : Store) (c d : Coord) (raw : String) :
    (s.setRaw c raw).raw? d = if d = c then some raw else s.raw? d := by
  simp only [raw?, get?_setRaw]
  split <;> rfl

@[simp] theorem raw?_setValue (s : Store) (c d : Coord) (value : CellValue) :
    (s.setValue c value).raw? d = s.raw? d := by
  simp only [raw?, get?_setValue]
  split
  · rw [Option.map_map]
    rfl
  · rfl

theorem value_of_get? {s : Store} {c : Coord} {r : Record} (h : s.get? c = some r) :
    s.value c = r.value := by
  rw [value, h]

theorem value_of_get?_eq_none {s : Store} {c : Coord} (h : s.get? c = none) :
    s.value c = .empty := by
  rw [value, h]

/-- Every record is kept where the listing finds it, and the size is the number of the records. -/
def Tidy (s : Store) : Prop :=
  s.cells.Represents s.get?

theorem tidy_empty : (∅ : Store).Tidy :=
  BlockGrid.represents_empty.self

theorem Tidy.setRaw {s : Store} (h : s.Tidy) (c : Coord) (raw : String) :
    (s.setRaw c raw).Tidy :=
  (BlockGrid.Represents.insert h c _).self

theorem Tidy.setValue {s : Store} (h : s.Tidy) (c : Coord) (value : CellValue) :
    (s.setValue c value).Tidy :=
  (BlockGrid.Represents.update h c _).self

/-- The listed cells are the cells with a record. -/
theorem mem_coords_iff {s : Store} (h : s.Tidy) (c : Coord) :
    c ∈ s.coords ↔ s.contains c = true := by
  rw [coords, Coord.mem_sorted_iff]
  exact BlockGrid.mem_keys_iff h.tidy c

/-- The size is the number of the cells with a record. -/
theorem Tidy.size_eq_ncard {s : Store} (h : s.Tidy) :
    {c | s.contains c = true}.Finite ∧ s.size = {c | s.contains c = true}.ncard := by
  have hcells : {c | s.contains c = true} = {c | s.get? c ≠ none} := by
    ext c
    rw [Set.mem_ofPred_eq, Set.mem_ofPred_eq, contains_iff_get?, Option.ne_none_iff_exists']
  rw [hcells]
  exact BlockGrid.Represents.size_eq_ncard h

/-! ## Listings -/

variable {s s' : Store}

theorem contains_congr (hraw : ∀ c, s'.raw? c = s.raw? c) (c : Coord) :
    s'.contains c = s.contains c := by
  rw [Bool.eq_iff_iff, ← Bool.not_eq_false, ← Bool.not_eq_false, contains_eq_false_iff,
    contains_eq_false_iff, ← raw?_eq_none_iff, ← raw?_eq_none_iff, hraw]

theorem mem_formulaCells_iff (h : s.Tidy) (c : Coord) :
    c ∈ s.formulaCells ↔ ∃ raw, s.raw? c = some raw ∧ Formula.isFormula raw = true := by
  simp only [formulaCells, Coord.mem_sorted_iff, List.mem_map, List.mem_filter, Prod.exists,
    BlockGrid.mem_toList_iff h.tidy, exists_and_right, exists_eq_right, raw?_eq_some_iff,
    Record.isFormula]
  constructor
  · rintro ⟨r, hr, hformula⟩
    exact ⟨r.raw, ⟨r, hr, rfl⟩, hformula⟩
  · rintro ⟨raw, ⟨r, hr, rfl⟩, hformula⟩
    exact ⟨r, hr, hformula⟩

/-- The texts decide which cells are listed, and in which order. -/
theorem coords_congr (h : s.Tidy) (h' : s'.Tidy) (hraw : ∀ c, s'.raw? c = s.raw? c) :
    s'.coords = s.coords ∧ s'.formulaCells = s.formulaCells := by
  have hnodup : ∀ {s : Store}, s.Tidy → (s.cells.toList.map Prod.fst).Nodup :=
    fun h => h.tidy.nodup_cells
  refine ⟨Coord.sorted_congr (hnodup h) (hnodup h') fun c => ?_,
    Coord.sorted_congr ((hnodup h).sublist (List.filter_sublist.map _))
      ((hnodup h').sublist (List.filter_sublist.map _)) fun c => ?_⟩
  · change c ∈ s'.coords ↔ c ∈ s.coords
    rw [mem_coords_iff h', mem_coords_iff h, contains_congr hraw]
  · change c ∈ s'.formulaCells ↔ c ∈ s.formulaCells
    rw [mem_formulaCells_iff h', mem_formulaCells_iff h, hraw]

end Store

end LiveSheet
