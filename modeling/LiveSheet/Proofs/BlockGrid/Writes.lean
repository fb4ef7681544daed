import LiveSheet.Proofs.BlockGrid
import Mathlib.Data.List.Nodup
import Mathlib.Data.Set.Card
import Mathlib.Logic.Function.Basic

/-! # Writing into a block grid

A block grid that is written to again and again holds what a plain map from cells to values would
hold, and every write finds in its cell what it would find there. Listing the grid gives each
cell once, the size that is kept beside the blocks is the number of these cells, and putting a
cell together from its block and its place needs no more than words of 32 bits. -/

namespace LiveSheet

/-- The cell lies in the coordinate space. -/
def Coord.InSpace (c : Coord) : Prop :=
  c.row ≤ maxIndex ∧ c.col ≤ maxIndex

namespace Block

/-! ## Indices in words -/

namespace Word

/-- A product, unless it leaves the words of 32 bits. -/
def mul? (a b : UInt32) : Option UInt32 :=
  if a.toNat * b.toNat < UInt32.size then some (a * b) else none

/-- A sum, unless it leaves the words of 32 bits. -/
def add? (a b : UInt32) : Option UInt32 :=
  if a.toNat + b.toNat < UInt32.size then some (a + b) else none

/-- The index at a place of a block. -/
def index? (block : UInt32) (place : UInt8) : Option UInt32 :=
  (mul? block 16).bind fun origin => add? origin place.toUInt32

theorem index?_eq_some {block : UInt32} {place : UInt8}
    (h : block.toNat * side + place.toNat < UInt32.size) :
    ∃ i, index? block place = some i ∧ i.toNat = block.toNat * side + place.toNat := by
  have hproduct : block.toNat * (16 : UInt32).toNat < UInt32.size :=
    Nat.lt_of_le_of_lt (Nat.le_add_right _ _) h
  have horigin : (block * 16).toNat = block.toNat * side := by
    rw [UInt32.toNat_mul, Nat.mod_eq_of_lt hproduct]
    rfl
  have hsum : (block * 16).toNat + place.toUInt32.toNat < UInt32.size := by
    rwa [horigin, UInt8.toNat_toUInt32]
  refine ⟨block * 16 + place.toUInt32, ?_, ?_⟩
  · rw [index?, mul?, if_pos hproduct, Option.bind_some, add?, if_pos hsum]
  · rw [UInt32.toNat_add, Nat.mod_eq_of_lt hsum, horigin, UInt8.toNat_toUInt32]

end Word

/-- The block and the place fit in words, and so does the index that they stand for, which no
step towards it exceeds. -/
def FitsWords (block place : Nat) : Prop :=
  ∃ (b : UInt32) (p : UInt8) (i : UInt32), b.toNat = block ∧ p.toNat = place ∧
    Word.index? b p = some i ∧ i.toNat = block * side + place

/-- An index of the coordinate space is put together in words. -/
theorem fitsWords {block place : Nat} (hplace : place < side)
    (hindex : block * side + place ≤ Coord.maxIndex) : FitsWords block place := by
  have hindex' : block * side + place < UInt32.size := Nat.lt_succ_of_le hindex
  simp only [side] at hplace hindex'
  have hblock : (UInt32.ofNat block).toNat = block :=
    UInt32.toNat_ofNat_of_lt' (by omega)
  have hplace' : (UInt8.ofNat place).toNat = place :=
    UInt8.toNat_ofNat_of_lt' (by simp only [UInt8.size]; omega)
  have hfits : (UInt32.ofNat block).toNat * side + (UInt8.ofNat place).toNat < UInt32.size := by
    rwa [hblock, hplace', side]
  obtain ⟨i, hi, heq⟩ := Word.index?_eq_some hfits
  rw [hblock, hplace'] at heq
  exact ⟨_, _, i, hblock, hplace', hi, heq⟩

theorem coord_injective (b : Block) {p q : Place} (h : b.coord p = b.coord q) : p = q := by
  cases p
  cases q
  simp only [coord, Coord.mk.injEq, Nat.add_left_cancel_iff] at h
  rw [Place.mk.injEq]
  exact h

end Block

namespace BlockGrid

variable {α : Type} {g g' : BlockGrid α} {c : Coord}

theorem exchange_eq (g : BlockGrid α) (c : Coord) (value : α) :
    g.exchange c value = (g.get? c, g.insert c value) := by
  rw [exchange, get?, Std.HashMap.getD_eq_getD_getElem?]
  cases g.blocks[Block.of c]? with
  | none => rw [Option.getD_none, Std.HashMap.getElem?_empty, Option.bind_none]
  | some block => rw [Option.getD_some, Option.bind_some]

/-! ## The listing -/

/-- The listed cells. -/
def cells (g : BlockGrid α) : List Coord :=
  g.toList.map Prod.fst

theorem mem_cells_iff (h : g.Tidy) (c : Coord) : c ∈ g.cells ↔ g.contains c = true :=
  mem_keys_iff h c

theorem mem_blockToList_fst {b : Block} {block : Std.HashMap Place α}
    (h : c ∈ (blockToList b block).map Prod.fst) : ∃ p ∈ block, b.coord p = c := by
  simp only [blockToList, List.map_map, List.mem_map, Function.comp_apply, Prod.exists,
    Std.HashMap.mem_toList_iff_getElem?_eq_some] at h
  obtain ⟨p, v, hp, rfl⟩ := h
  exact ⟨p, Std.HashMap.mem_iff_isSome_getElem?.mpr (by simp [hp]), rfl⟩

theorem nodup_blockToList (b : Block) (block : Std.HashMap Place α) :
    ((blockToList b block).map Prod.fst).Nodup := by
  rw [blockToList, List.map_map]
  refine List.pairwise_map.mpr (block.distinct_keys_toList.imp fun {a a'} hne heq => ?_)
  rw [Block.coord_injective b heq, beq_self_eq_true] at hne
  cases hne

/-- No cell is listed twice: a block lists no place twice, and a cell lies in one block only. -/
theorem Tidy.nodup_cells (h : g.Tidy) : g.cells.Nodup := by
  rw [cells, toList, List.map_flatMap, List.nodup_flatMap]
  refine ⟨fun entry _ => nodup_blockToList entry.1 entry.2, ?_⟩
  refine g.blocks.distinct_keys_toList.imp_of_mem fun {x y} hx hy hne c hcx hcy => ?_
  rw [Std.HashMap.mem_toList_iff_getElem?_eq_some] at hx hy
  obtain ⟨p, hp, rfl⟩ := mem_blockToList_fst hcx
  obtain ⟨q, hq, heq⟩ := mem_blockToList_fst hcy
  obtain ⟨hrow, hcol⟩ := h x.1 x.2 hx p hp
  obtain ⟨hrow', hcol'⟩ := h y.1 y.2 hy q hq
  have hblock : x.1 = y.1 := by
    rw [← Block.of_coord x.1 hrow hcol, ← heq, Block.of_coord y.1 hrow' hcol']
  rw [hblock, beq_self_eq_true] at hne
  cases hne

theorem length_cells (g : BlockGrid α) : g.cells.length = g.toList.length :=
  List.length_map _

/-- Grids that hold values in the same cells list equally many. -/
theorem length_toList_eq (h : g.Tidy) (h' : g'.Tidy)
    (hcells : ∀ c, g'.contains c = true ↔ g.contains c = true) :
    g'.toList.length = g.toList.length := by
  rw [← length_cells, ← length_cells]
  refine ((List.perm_ext_iff_of_nodup h'.nodup_cells h.nodup_cells).mpr fun c => ?_).length_eq
  rw [mem_cells_iff h', mem_cells_iff h, hcells]

/-- A grid that holds a value in one more cell lists one cell more. -/
theorem length_toList_eq_succ (h : g.Tidy) (h' : g'.Tidy) (hc : ¬g.contains c = true)
    (hcells : ∀ d, g'.contains d = true ↔ d = c ∨ g.contains d = true) :
    g'.toList.length = g.toList.length + 1 := by
  rw [← length_cells, ← length_cells, ← List.length_cons (a := c)]
  have hnodup : (c :: g.cells).Nodup :=
    List.nodup_cons.mpr ⟨fun hmem => hc ((mem_cells_iff h c).mp hmem), h.nodup_cells⟩
  refine ((List.perm_ext_iff_of_nodup h'.nodup_cells hnodup).mpr fun d => ?_).length_eq
  rw [List.mem_cons, mem_cells_iff h', mem_cells_iff h, hcells]

/-! ## Plain maps -/

/-- A plain map from cells to values. -/
abbrev Plain (α : Type) := Coord → Option α

def Plain.empty : Plain α := fun _ => none

inductive Write (α : Type) where
  | insert (c : Coord) (value : α)
  /-- Changes the value of a cell in place. -/
  | update (c : Coord) (f : α → α)
  | clear

/-- A write puts no value beyond the coordinate space. -/
def Write.InSpace : Write α → Prop
  | insert c _ => c.InSpace
  | _ => True

/-- Writes into a plain map, and says what was found in the cell. -/
def Plain.perform (m : Plain α) : Write α → Option α × Plain α
  | .insert c value => (m c, Function.update m c (some value))
  | .update c f => (m c, Function.update m c ((m c).map f))
  | .clear => (none, .empty)

/-- Writes into a grid, and says what was found in the cell. -/
def perform (g : BlockGrid α) : Write α → Option α × BlockGrid α
  | .insert c value => g.exchange c value
  | .update c f => (g.get? c, g.modify c f)
  | .clear => (none, ∅)

/-- Writes again and again, and says what each write found. -/
def Plain.performAll (m : Plain α) : List (Write α) → List (Option α) × Plain α
  | [] => ([], m)
  | write :: rest =>
      let (found, m) := m.perform write
      let (others, m) := m.performAll rest
      (found :: others, m)

/-- Writes again and again, and says what each write found. -/
def performAll (g : BlockGrid α) : List (Write α) → List (Option α) × BlockGrid α
  | [] => ([], g)
  | write :: rest =>
      let (found, g) := g.perform write
      let (others, g) := g.performAll rest
      (found :: others, g)

/-- The grid holds what a plain map does, and its size is the number of the cells it lists. -/
structure Represents (g : BlockGrid α) (m : Plain α) : Prop where
  tidy : g.Tidy
  get?_eq : ∀ c, g.get? c = m c
  size_eq : g.size = g.toList.length

variable {m : Plain α}

theorem Represents.self (h : g.Represents m) : g.Represents g.get? :=
  ⟨h.tidy, fun _ => rfl, h.size_eq⟩

theorem represents_empty : (∅ : BlockGrid α).Represents .empty where
  tidy := tidy_empty
  get?_eq := get?_empty
  size_eq := by
    have hcells : (∅ : BlockGrid α).cells = [] := by
      rw [List.eq_nil_iff_forall_not_mem]
      intro c hc
      rw [mem_cells_iff tidy_empty, contains, get?_empty] at hc
      cases hc
    rw [← length_cells, hcells]
    rfl

theorem Represents.insert (h : g.Represents m) (c : Coord) (value : α) :
    (g.insert c value).Represents (Function.update m c (some value)) where
  tidy := h.tidy.insert c value
  get?_eq d := by
    rw [get?_insert, Function.update_apply, h.get?_eq]
  size_eq := by
    have hcells : ∀ d, (g.insert c value).contains d = true ↔ d = c ∨ g.contains d = true := by
      intro d
      rw [contains_eq_true_iff, contains_eq_true_iff, get?_insert]
      by_cases hd : d = c <;> simp [hd]
    by_cases hc : g.contains c = true
    · -- The value replaces another one.
      rw [length_toList_eq h.tidy (h.tidy.insert c value) fun d => ?_, ← h.size_eq]
      · exact if_pos hc
      · rw [hcells, or_iff_right_of_imp fun hd => hd ▸ hc]
    · rw [length_toList_eq_succ h.tidy (h.tidy.insert c value) hc hcells, ← h.size_eq]
      exact if_neg hc

theorem Represents.update (h : g.Represents m) (c : Coord) (f : α → α) :
    (g.modify c f).Represents (Function.update m c ((m c).map f)) where
  tidy := h.tidy.modify c f
  get?_eq d := by
    rw [get?_modify, Function.update_apply, h.get?_eq]
    split
    · next hd => rw [hd]
    · rfl
  size_eq := by
    rw [length_toList_eq h.tidy (h.tidy.modify c f) fun d => ?_, ← h.size_eq]
    · rfl
    · rw [contains_eq_true_iff, contains_eq_true_iff, get?_modify]
      by_cases hd : d = c <;> simp [hd]

theorem Represents.perform (h : g.Represents m) (write : Write α) :
    (g.perform write).1 = (m.perform write).1 ∧
      (g.perform write).2.Represents (m.perform write).2 := by
  cases write with
  | insert c value =>
      simp only [BlockGrid.perform, exchange_eq]
      exact ⟨h.get?_eq c, h.insert c value⟩
  | update c f => exact ⟨h.get?_eq c, h.update c f⟩
  | clear => exact ⟨rfl, represents_empty⟩

theorem Represents.performAll (h : g.Represents m) (writes : List (Write α)) :
    (g.performAll writes).1 = (m.performAll writes).1 ∧
      (g.performAll writes).2.Represents (m.performAll writes).2 := by
  induction writes generalizing g m with
  | nil => exact ⟨rfl, h⟩
  | cons write rest ih =>
      obtain ⟨hfound, hnext⟩ := h.perform write
      obtain ⟨hothers, hlast⟩ := ih hnext
      refine ⟨?_, hlast⟩
      simp only [BlockGrid.performAll, Plain.performAll, hfound, hothers]

/-- The size is the number of cells that hold a value. -/
theorem Represents.size_eq_ncard (h : g.Represents m) :
    {c | m c ≠ none}.Finite ∧ g.size = {c | m c ≠ none}.ncard := by
  have hcells : {c | m c ≠ none} = ↑g.cells.toFinset := by
    ext c
    rw [List.coe_toFinset, Set.mem_ofPred_eq, Set.mem_ofPred_eq, mem_cells_iff h.tidy,
      contains_eq_true_iff, h.get?_eq, Option.ne_none_iff_exists']
  rw [hcells, Set.ncard_coe_finset, List.toFinset_card_of_nodup h.tidy.nodup_cells, length_cells]
  exact ⟨Finset.finite_toSet _, h.size_eq⟩

/-! ## The coordinate space -/

/-- No value lies beyond the coordinate space. -/
def Plain.InSpace (m : Plain α) : Prop :=
  ∀ c, m c ≠ none → c.InSpace

theorem Plain.InSpace.perform (h : m.InSpace) {write : Write α} (hwrite : write.InSpace) :
    (m.perform write).2.InSpace := by
  intro d hd
  cases write with
  | insert c value =>
      simp only [Plain.perform, Function.update_apply] at hd
      split at hd
      · next hdc => exact hdc ▸ hwrite
      · exact h d hd
  | update c f =>
      simp only [Plain.perform, Function.update_apply] at hd
      split at hd
      · next hdc =>
        refine h d fun hnone => hd ?_
        rw [← hdc, hnone, Option.map_none]
      · exact h d hd
  | clear => exact (hd rfl).elim

theorem Plain.InSpace.performAll (h : m.InSpace) {writes : List (Write α)}
    (hwrites : ∀ write ∈ writes, write.InSpace) : (m.performAll writes).2.InSpace := by
  induction writes generalizing m with
  | nil => exact h
  | cons write rest ih =>
      exact ih (h.perform (hwrites write List.mem_cons_self)) fun write' hwrite =>
        hwrites write' (List.mem_cons_of_mem _ hwrite)

/-- A place of a block is taken only if its cell holds a value. -/
theorem Represents.fitsWords (h : g.Represents m) (hm : m.InSpace) {b : Block}
    {block : Std.HashMap Place α} (hblock : g.blocks[b]? = some block) {p : Place}
    (hp : p ∈ block) : Block.FitsWords b.row p.row ∧ Block.FitsWords b.col p.col := by
  obtain ⟨hrow, hcol⟩ := h.tidy b block hblock p hp
  have hget : g.get? (b.coord p) ≠ none := by
    rw [get?, Block.of_coord b hrow hcol, Place.of_coord b hrow hcol, hblock, Option.bind_some]
    exact Option.isSome_iff_ne_none.mp (Std.HashMap.mem_iff_isSome_getElem?.mp hp)
  rw [h.get?_eq] at hget
  obtain ⟨hrowSpace, hcolSpace⟩ := hm _ hget
  exact ⟨Block.fitsWords hrow hrowSpace, Block.fitsWords hcol hcolSpace⟩

/-- A block grid that is written to is a plain map from cells to values. Every write finds what
it would find in the plain map, and afterwards both hold the same values in the same cells. Each
of these cells is listed once, and the size is their number. No write into the coordinate space
leads to a cell that is not put together in words of 32 bits. -/
theorem performAll_represents_plain (writes : List (Write α)) :
    let g := ((∅ : BlockGrid α).performAll writes).2
    let m := (Plain.empty.performAll writes).2
    ((∅ : BlockGrid α).performAll writes).1 = (Plain.empty.performAll writes).1 ∧
      (∀ c, g.get? c = m c ∧ (g.contains c = true ↔ m c ≠ none)) ∧
      (∀ c value, (c, value) ∈ g.toList ↔ m c = some value) ∧ (g.toList.map Prod.fst).Nodup ∧
      (g.size = g.toList.length ∧ {c | m c ≠ none}.Finite ∧ g.size = {c | m c ≠ none}.ncard) ∧
      (g.isEmpty = true ↔ g.size = 0) ∧
      ((∀ write ∈ writes, write.InSpace) →
        ∀ (b : Block) (block : Std.HashMap Place α), g.blocks[b]? = some block →
          ∀ p ∈ block, Block.FitsWords b.row p.row ∧ Block.FitsWords b.col p.col) := by
  intro g m
  obtain ⟨hfound, h⟩ := represents_empty.performAll writes
  refine ⟨hfound, fun c => ⟨h.get?_eq c, ?_⟩, fun c value => ?_, h.tidy.nodup_cells,
    ⟨h.size_eq, h.size_eq_ncard⟩, beq_iff_eq, fun hwrites b block hblock p hp => ?_⟩
  · rw [contains_eq_true_iff, h.get?_eq, Option.ne_none_iff_exists']
  · rw [mem_toList_iff h.tidy, h.get?_eq]
  · have hempty : (Plain.empty : Plain α).InSpace := fun c hc => (hc rfl).elim
    exact h.fitsWords (hempty.performAll hwrites) hblock hp

/-- Writes at the far corner of the coordinate space, and one between them at the near one. -/
theorem performAll_represents_corners :
    let last : Coord := ⟨Coord.maxIndex, Coord.maxIndex⟩
    let writes : List (Write Nat) :=
      [.insert last 1, .update last (· + 1), .insert ⟨0, 0⟩ 7, .insert last 5]
    (performAll ∅ writes).1 = [none, some 1, none, some 2] ∧
      (performAll ∅ writes).2.get? last = some 5 ∧ Block.FitsWords 0xfffffff 15 := by
  intro last writes
  obtain ⟨hfound, hget, -, -, -, -, hwords⟩ := performAll_represents_plain writes
  have hlast : (performAll ∅ writes).2.get? last = some 5 := (hget last).1.trans (by decide)
  refine ⟨hfound.trans (by decide), hlast, ?_⟩
  have hspace : ∀ write ∈ writes, write.InSpace := by
    simp only [writes, List.forall_mem_cons, List.not_mem_nil, false_implies, implies_true,
      and_true]
    exact ⟨⟨le_refl _, le_refl _⟩, trivial, ⟨Nat.zero_le _, Nat.zero_le _⟩, le_refl _, le_refl _⟩
  obtain ⟨block, hblock, hplace⟩ := Option.bind_eq_some_iff.mp hlast
  have hmem : Place.of last ∈ block :=
    Std.HashMap.mem_iff_isSome_getElem?.mpr (by rw [hplace, Option.isSome_some])
  have hparts : (Block.of last).row = 0xfffffff ∧ (Place.of last).row = 15 := by decide
  rw [← hparts.1, ← hparts.2]
  exact (hwords hspace _ block hblock _ hmem).1

end BlockGrid

end LiveSheet
