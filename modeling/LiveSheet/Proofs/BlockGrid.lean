import LiveSheet.BlockGrid

/-! # Block grids as finite maps

What a block grid holds is told by `get?`. Every operation is a law about `get?`, and listing
the cells gives exactly the cells that have a value. The listing rebuilds a cell from its block
and its place, so it needs the places to lie inside their blocks; all operations keep that. -/

namespace LiveSheet

theorem Block.of_coord (b : Block) {p : Place} (hrow : p.row < side) (hcol : p.col < side) :
    of (b.coord p) = b := by
  have hpos : 0 < side := by decide
  cases b
  simp only [of, coord, Block.mk.injEq]
  constructor
  · rw [Nat.mul_comm, Nat.mul_add_div hpos, Nat.div_eq_of_lt hrow, Nat.add_zero]
  · rw [Nat.mul_comm, Nat.mul_add_div hpos, Nat.div_eq_of_lt hcol, Nat.add_zero]

theorem Place.of_coord (b : Block) {p : Place} (hrow : p.row < Block.side)
    (hcol : p.col < Block.side) : of (b.coord p) = p := by
  cases p
  simp only [of, Block.coord, Place.mk.injEq]
  constructor
  · rw [Nat.mul_comm, Nat.mul_add_mod, Nat.mod_eq_of_lt hrow]
  · rw [Nat.mul_comm, Nat.mul_add_mod, Nat.mod_eq_of_lt hcol]

theorem Place.of_row_lt (c : Coord) : (of c).row < Block.side :=
  Nat.mod_lt _ (by decide)

theorem Place.of_col_lt (c : Coord) : (of c).col < Block.side :=
  Nat.mod_lt _ (by decide)

theorem Block.eq_of_same {c d : Coord} (hblock : of c = of d) (hplace : Place.of c = Place.of d) :
    c = d := by
  rw [← coord_of c, ← coord_of d, hblock, hplace]

namespace BlockGrid

variable {α : Type}

@[simp] theorem get?_empty (c : Coord) : (∅ : BlockGrid α).get? c = none := by
  change ((∅ : Std.HashMap Block (Std.HashMap Place α))[Block.of c]?).bind _ = none
  rw [Std.HashMap.getElem?_empty, Option.bind_none]

theorem contains_eq_true_iff (g : BlockGrid α) (c : Coord) :
    g.contains c = true ↔ ∃ value, g.get? c = some value := by
  rw [contains, Option.isSome_iff_exists]

theorem get?_insert (g : BlockGrid α) (c d : Coord) (value : α) :
    (g.insert c value).get? d = if d = c then some value else g.get? d := by
  simp only [get?, insert, Std.HashMap.getElem?_alter, beq_iff_eq]
  -- Cells are the same if their blocks and their places are.
  by_cases hblock : Block.of c = Block.of d
  · rw [if_pos hblock, Option.bind_some, Std.HashMap.getElem?_insert, ← hblock]
    by_cases hplace : Place.of c = Place.of d
    · have hcell : d = c := (Block.eq_of_same hblock hplace).symm
      simp [hplace, hcell]
    · have hcell : d ≠ c := fun h => hplace (h ▸ rfl)
      cases g.blocks[Block.of c]? <;> simp [hplace, hcell]
  · have hcell : d ≠ c := fun h => hblock (h ▸ rfl)
    rw [if_neg hblock, if_neg hcell]

theorem get?_modify (g : BlockGrid α) (c d : Coord) (f : α → α) :
    (g.modify c f).get? d = if d = c then (g.get? d).map f else g.get? d := by
  simp only [get?, modify, Std.HashMap.getElem?_modify, beq_iff_eq]
  by_cases hblock : Block.of c = Block.of d
  · rw [if_pos hblock, hblock]
    by_cases hplace : Place.of c = Place.of d
    · have hcell : d = c := (Block.eq_of_same hblock hplace).symm
      subst hcell
      cases g.blocks[Block.of d]? <;> simp
    · have hcell : d ≠ c := fun h => hplace (h ▸ rfl)
      cases g.blocks[Block.of d]? <;> simp [Std.HashMap.getElem?_modify, hplace, hcell]
  · have hcell : d ≠ c := fun h => hblock (h ▸ rfl)
    rw [if_neg hblock, if_neg hcell]

/-- Every value lies at a place inside its block. -/
def Tidy (g : BlockGrid α) : Prop :=
  ∀ (b : Block) (block : Std.HashMap Place α), g.blocks[b]? = some block →
    ∀ p ∈ block, p.row < Block.side ∧ p.col < Block.side

theorem tidy_empty : (∅ : BlockGrid α).Tidy := by
  intro b block hblock
  change (∅ : Std.HashMap Block (Std.HashMap Place α))[b]? = some block at hblock
  rw [Std.HashMap.getElem?_empty] at hblock
  cases hblock

theorem Tidy.insert {g : BlockGrid α} (h : g.Tidy) (c : Coord) (value : α) :
    (g.insert c value).Tidy := by
  intro b block hblock p hp
  simp only [BlockGrid.insert, Std.HashMap.getElem?_alter, beq_iff_eq] at hblock
  split at hblock
  · next hb =>
    cases hblock
    rcases Std.HashMap.mem_insert.mp hp with hplace | hp
    · rw [← beq_iff_eq.mp hplace]
      exact ⟨Place.of_row_lt c, Place.of_col_lt c⟩
    · cases hold : g.blocks[Block.of c]? with
      | none => simp [hold] at hp
      | some old =>
          rw [hold, Option.getD_some] at hp
          exact h _ old hold p hp
  · exact h b block hblock p hp

theorem Tidy.modify {g : BlockGrid α} (h : g.Tidy) (c : Coord) (f : α → α) :
    (g.modify c f).Tidy := by
  intro b block hblock p hp
  simp only [BlockGrid.modify, Std.HashMap.getElem?_modify, beq_iff_eq] at hblock
  split at hblock
  · next hb =>
    obtain ⟨old, hold, rfl⟩ := Option.map_eq_some_iff.mp hblock
    exact h b old (hb ▸ hold) p (Std.HashMap.mem_modify.mp hp)
  · exact h b block hblock p hp

/-- Listing gives the cells that have a value, with their values. -/
theorem mem_toList_iff {g : BlockGrid α} (h : g.Tidy) (c : Coord) (value : α) :
    (c, value) ∈ g.toList ↔ g.get? c = some value := by
  simp only [toList, blockToList, List.mem_flatMap, List.mem_map, Prod.exists,
    Std.HashMap.mem_toList_iff_getElem?_eq_some, Prod.mk.injEq, get?, Option.bind_eq_some_iff]
  constructor
  · rintro ⟨b, block, hblock, p, v, hp, rfl, rfl⟩
    have hmem : p ∈ block := Std.HashMap.mem_iff_isSome_getElem?.mpr (by simp [hp])
    obtain ⟨hrow, hcol⟩ := h b block hblock p hmem
    exact ⟨block, by rw [Block.of_coord b hrow hcol]; exact hblock,
      by rw [Place.of_coord b hrow hcol]; exact hp⟩
  · rintro ⟨block, hblock, hp⟩
    exact ⟨Block.of c, block, hblock, Place.of c, value, hp, Block.coord_of c, rfl⟩

theorem mem_keys_iff {g : BlockGrid α} (h : g.Tidy) (c : Coord) :
    c ∈ g.toList.map Prod.fst ↔ g.contains c = true := by
  simp only [List.mem_map, Prod.exists, exists_and_right, exists_eq_right, mem_toList_iff h,
    contains_eq_true_iff]

end BlockGrid

end LiveSheet
