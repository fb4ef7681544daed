import LiveSheet.Proofs.Graph.Changes
import LiveSheet.Proofs.Graph.Reach
import Mathlib.Order.Lattice.Nat

/-! # The order of the affected cells

Affected cells are listed by their distance, and within one distance in the order in which they are
found. The list is what a search with a queue goes through: a cell is listed when it is taken from
the queue for the first time, and its dependents join the queue at the end. Each layer takes the
queue from the dependents of one layer to those of the next. -/

namespace LiveSheet.Graph

variable {g : Graph} {c x y : Coord}

/-! ## Cells that are picked -/

variable {seen : Std.HashSet Coord} {cells : List Coord}

theorem foldl_pick (cells picked : List Coord) (seen : Std.HashSet Coord) :
    cells.foldl pick (picked, seen) =
      ((cells.foldl pick ([], seen)).1 ++ picked, (cells.foldl pick ([], seen)).2) := by
  induction cells generalizing picked seen with
  | nil => rfl
  | cons x rest ih =>
      rw [List.foldl_cons, List.foldl_cons, pick, pick]
      split
      · exact ih picked seen
      · rw [ih (x :: picked), ih [x], List.append_assoc, List.singleton_append]

theorem unseen_cons_of_mem (h : x ∈ seen) : unseen seen (x :: cells) = unseen seen cells := by
  rw [unseen, List.foldl_cons, pick, if_pos (Std.HashSet.mem_iff_contains.mp h), unseen]

theorem unseen_cons_of_not_mem (h : x ∉ seen) : unseen seen (x :: cells) =
    (x :: (unseen (seen.insert x) cells).1, (unseen (seen.insert x) cells).2) := by
  rw [unseen, List.foldl_cons, pick, if_neg (mt Std.HashSet.mem_iff_contains.mpr h), foldl_pick,
    unseen]
  simp

/-- What is picked from two lists is picked from the first and then from the second. -/
theorem unseen_append (seen : Std.HashSet Coord) (first second : List Coord) :
    unseen seen (first ++ second) =
      ((unseen seen first).1 ++ (unseen (unseen seen first).2 second).1,
        (unseen (unseen seen first).2 second).2) := by
  induction first generalizing seen with
  | nil => rfl
  | cons x rest ih =>
      rw [List.cons_append]
      by_cases hx : x ∈ seen
      · rw [unseen_cons_of_mem hx, unseen_cons_of_mem hx, ih]
      · rw [unseen_cons_of_not_mem hx, unseen_cons_of_not_mem hx, ih, List.cons_append]

theorem sublist_unseen (seen : Std.HashSet Coord) (cells : List Coord) :
    (unseen seen cells).1.Sublist cells := by
  induction cells generalizing seen with
  | nil => exact .slnil
  | cons x rest ih =>
      by_cases hx : x ∈ seen
      · rw [unseen_cons_of_mem hx]
        exact (ih seen).cons x
      · rw [unseen_cons_of_not_mem hx]
        exact (ih _).cons_cons x

theorem nodup_unseen (seen : Std.HashSet Coord) (cells : List Coord) :
    (unseen seen cells).1.Nodup := by
  induction cells generalizing seen with
  | nil => exact .nil
  | cons x rest ih =>
      by_cases hx : x ∈ seen
      · rw [unseen_cons_of_mem hx]
        exact ih seen
      · rw [unseen_cons_of_not_mem hx, List.nodup_cons]
        refine ⟨fun hmem => ?_, ih _⟩
        exact ((mem_unseen_fst_iff _ _ _).mp hmem).2 Std.HashSet.mem_insert_self

/-! ## The order in which cells are found -/

/-- The place of the first of the cells whose dependents `x` is among. -/
def foundAt (g : Graph) (cells : List Coord) (x : Coord) : Nat :=
  cells.findIdx fun a => x ∈ g.dependents a

/-- Going through the dependents of the cells, `x` is found before `y`: as a dependent of an earlier
cell, or of the same cell and before `y` in row-major order. -/
def FoundBefore (g : Graph) (cells : List Coord) (x y : Coord) : Prop :=
  g.foundAt cells x < g.foundAt cells y ∨
    g.foundAt cells x = g.foundAt cells y ∧ compare x y = .lt

theorem foundAt_lt_iff (g : Graph) (cells : List Coord) (x : Coord) :
    g.foundAt cells x < cells.length ↔ x ∈ cells.flatMap g.dependents := by
  simp [foundAt, List.findIdx_lt_length]

/-- A further cell makes no difference to what has been found. -/
theorem foundAt_append_of_mem (h : x ∈ cells.flatMap g.dependents) (a : Coord) :
    g.foundAt (cells ++ [a]) x = g.foundAt cells x := by
  rw [← foundAt_lt_iff] at h
  rw [foundAt, List.findIdx_append]
  exact if_pos h

theorem foundAt_append_of_not_mem (h : x ∉ cells.flatMap g.dependents) {a : Coord}
    (hx : x ∈ g.dependents a) : g.foundAt (cells ++ [a]) x = cells.length := by
  rw [← foundAt_lt_iff] at h
  rw [foundAt, List.findIdx_append]
  refine (if_neg h).trans ?_
  simp [hx]

/-- The dependents that are picked come in the order in which they are found. -/
theorem pairwise_foundBefore (g : Graph) (cells : List Coord) :
    (unseen ∅ (cells.flatMap g.dependents)).1.Pairwise (g.FoundBefore cells) := by
  induction cells using List.reverseRecOn with
  | nil => exact .nil
  | append_singleton cells a ih =>
      rw [List.flatMap_append, List.flatMap_singleton, unseen_append, List.pairwise_append]
      have hold : ∀ x ∈ (unseen ∅ (cells.flatMap g.dependents)).1,
          x ∈ cells.flatMap g.dependents :=
        fun x hx => ((mem_unseen_fst_iff _ _ _).mp hx).1
      have hnew : ∀ x ∈ (unseen (unseen ∅ (cells.flatMap g.dependents)).2 (g.dependents a)).1,
          g.foundAt (cells ++ [a]) x = cells.length := by
        intro x hx
        obtain ⟨hxa, hfresh⟩ := (mem_unseen_fst_iff _ _ _).mp hx
        refine foundAt_append_of_not_mem (fun hmem => hfresh ?_) hxa
        exact (mem_unseen_snd_iff _ _ _).mpr (.inr hmem)
      refine ⟨ih.imp_of_mem fun {x y} hx hy hxy => ?_, ?_, fun x hx y hy => .inl ?_⟩
      · rw [FoundBefore, foundAt_append_of_mem (hold x hx), foundAt_append_of_mem (hold y hy)]
        exact hxy
      · -- The dependents of one cell are found in row-major order.
        refine ((g.ascending_dependents a).sublist (sublist_unseen _ _)).imp_of_mem
          fun {x y} hx hy hxy => .inr ⟨?_, hxy⟩
        rw [hnew x hx, hnew y hy]
      · rw [foundAt_append_of_mem (hold x hx), hnew y hy]
        exact (foundAt_lt_iff g cells x).mpr (hold x hx)

/-! ## Distances -/

/-- A path of `n` edges leads from `c` to a cell. -/
def Away (g : Graph) (c : Coord) : Nat → Coord → Prop
  | 0, x => x = c
  | n + 1, x => ∃ a, g.Away c n a ∧ g.Edge a x

/-- A path of at least one and at most `n` edges leads from `c` to `x`. -/
def Within (g : Graph) (c : Coord) (n : Nat) (x : Coord) : Prop :=
  ∃ m, 0 < m ∧ m ≤ n ∧ g.Away c m x

/-- The number of edges of the shortest path from `c` to `x` that has an edge. -/
noncomputable def distance (g : Graph) (c x : Coord) : Nat :=
  sInf {n | 0 < n ∧ g.Away c n x}

theorem within_zero_iff : g.Within c 0 x ↔ False := by
  refine iff_false_intro ?_
  rintro ⟨m, hpos, hle, -⟩
  omega

theorem within_succ_iff {n : Nat} : g.Within c (n + 1) x ↔
    g.Edge c x ∨ g.Within c n x ∨ ∃ a, g.Within c n a ∧ g.Edge a x := by
  constructor
  · rintro ⟨m, hpos, hle, haway⟩
    match m with
    | 1 =>
        obtain ⟨a, rfl, hedge⟩ := haway
        exact .inl hedge
    | m + 2 =>
        obtain ⟨a, haway, hedge⟩ := haway
        exact .inr (.inr ⟨a, ⟨m + 1, by omega, by omega, haway⟩, hedge⟩)
  · rintro (hedge | ⟨m, hpos, hle, haway⟩ | ⟨a, ⟨m, hpos, hle, haway⟩, hedge⟩)
    · exact ⟨1, by omega, by omega, c, rfl, hedge⟩
    · exact ⟨m, hpos, by omega, haway⟩
    · exact ⟨m + 1, by omega, by omega, a, haway, hedge⟩

/-- Within a distance lie the cells whose shortest path is no longer. -/
theorem distance_le_iff {m n : Nat} (h : g.Within c m x) : g.distance c x ≤ n ↔ g.Within c n x := by
  obtain ⟨k, hpos, -, haway⟩ := h
  have hmem : g.distance c x ∈ {n | 0 < n ∧ g.Away c n x} := Nat.sInf_mem ⟨k, hpos, haway⟩
  constructor
  · exact fun hle => ⟨_, hmem.1, hle, hmem.2⟩
  · rintro ⟨k, hpos, hle, haway⟩
    have hk : k ∈ {n | 0 < n ∧ g.Away c n x} := ⟨hpos, haway⟩
    exact (Nat.sInf_le hk).trans hle

/-! ## The search with a queue -/

/-- The cells of a queue are taken one after the other, with `order` listed so far. A cell that has
been listed is passed over; any other is listed, and its dependents join the queue. When the queue
is empty, `result` is listed. -/
inductive Drains (g : Graph) : List Coord → List Coord → List Coord → Prop
  | empty (order : List Coord) : Drains g order [] order
  | skip {order queue result : List Coord} {x : Coord} (hx : x ∈ order)
      (h : Drains g order queue result) : Drains g order (x :: queue) result
  | visit {order queue result : List Coord} {x : Coord} (hx : x ∉ order)
      (h : Drains g (order ++ [x]) (queue ++ g.dependents x) result) :
      Drains g order (x :: queue) result

/-- Once the cells at the front are taken, those that were not listed are, and their dependents have
joined the queue in the same order. -/
theorem Drains.of_unseen {order queue result : List Coord} (seen : Std.HashSet Coord)
    (hseen : ∀ x, x ∈ seen ↔ x ∈ order)
    (h : g.Drains (order ++ (unseen seen cells).1)
      (queue ++ (unseen seen cells).1.flatMap g.dependents) result) :
    g.Drains order (cells ++ queue) result := by
  induction cells generalizing seen order queue with
  | nil => simpa [unseen] using h
  | cons x rest ih =>
      rw [List.cons_append]
      by_cases hx : x ∈ seen
      · rw [unseen_cons_of_mem hx] at h
        exact .skip ((hseen x).mp hx) (ih seen hseen h)
      · rw [unseen_cons_of_not_mem hx] at h
        refine .visit (mt (hseen x).mpr hx) ?_
        rw [List.append_assoc]
        refine ih (seen.insert x) (fun y => ?_) ?_
        · rw [Std.HashSet.mem_insert, beq_iff_eq, hseen, List.mem_append, List.mem_singleton,
            or_comm, eq_comm]
        · rw [List.append_assoc, List.append_assoc, List.singleton_append, ← List.flatMap_cons]
          exact h

/-! ## Layer by layer -/

/-- What is listed in the layers `done`, the last of which comes first. -/
def listed (done : List (List Coord)) : List Coord :=
  done.reverse.flatten

theorem listed_cons (layer : List Coord) (done : List (List Coord)) :
    listed (layer :: done) = listed done ++ layer := by
  simp [listed]

theorem mem_listed_iff (done : List (List Coord)) (x : Coord) :
    x ∈ listed done ↔ x ∈ done.flatten := by
  simp [listed, List.mem_flatten]

/-- What the layers have to do with distances and with the queue. -/
structure Layered (g : Graph) (c : Coord) (done : List (List Coord))
    (seen : Std.HashSet Coord) (layer : List Coord) : Prop where
  /-- The layers are picked from the dependents of `c` and of the finished layers. -/
  picked : unseen ∅ ((c :: listed done).flatMap g.dependents) = (listed done ++ layer, seen)
  within_done : ∀ x, x ∈ listed done ↔ g.Within c done.length x
  within_seen : ∀ x, x ∈ seen ↔ g.Within c (done.length + 1) x
  nearer : (listed done).Pairwise fun x y => g.distance c x ≤ g.distance c y
  drains : ∀ result, g.Drains (listed done ++ layer) (layer.flatMap g.dependents) result →
    g.Drains [] (g.dependents c) result

theorem Layered.start (g : Graph) (c : Coord) :
    Layered g c [] (unseen ∅ (g.dependents c)).2 (unseen ∅ (g.dependents c)).1 where
  picked := by simp [listed]
  within_done x := by simp [listed, within_zero_iff]
  within_seen x := by
    rw [mem_unseen_snd_iff, List.length_nil, within_succ_iff]
    simp [within_zero_iff, Edge]
  nearer := .nil
  drains result h := by
    rw [← List.append_nil (g.dependents c)]
    exact Drains.of_unseen ∅ (by simp) (by simpa [listed] using h)

variable {done : List (List Coord)} {layer : List Coord}

/-- A layer lies at one distance, which is greater than that of all finished layers. -/
theorem Layered.distance_eq (h : Layered g c done seen layer) (hsearch : Search g c done seen layer)
    (hx : x ∈ layer) : g.distance c x = done.length + 1 := by
  have hwithin : g.Within c (done.length + 1) x :=
    (h.within_seen x).mp ((hsearch.seen_iff x).mpr (.inr hx))
  have hnot : ¬g.Within c done.length x := by
    rw [← h.within_done, mem_listed_iff]
    exact hsearch.fresh x hx
  have hle := (distance_le_iff hwithin).mpr hwithin
  have hlt := mt (distance_le_iff hwithin).mp hnot
  omega

theorem Layered.next (hsearch : Search g c done seen layer) (h : Layered g c done seen layer) :
    Layered g c (layer :: done) (unseen seen (layer.flatMap g.dependents)).2
      (unseen seen (layer.flatMap g.dependents)).1 where
  picked := by
    rw [listed_cons, ← List.cons_append, List.flatMap_append, unseen_append, h.picked]
  within_done x := by
    rw [List.length_cons, ← h.within_seen, hsearch.seen_iff, listed_cons, List.mem_append,
      mem_listed_iff]
  within_seen x := by
    rw [List.length_cons, within_succ_iff, ← h.within_seen, mem_unseen_snd_iff]
    constructor
    · rintro (hx | hx)
      · exact .inr (.inl hx)
      · obtain ⟨a, ha, hax⟩ := List.mem_flatMap.mp hx
        have hseen := (hsearch.seen_iff a).mpr (.inr ha)
        exact .inr (.inr ⟨a, (h.within_seen a).mp hseen, hax⟩)
    · rintro (hedge | hx | ⟨a, ha, hax⟩)
      · exact .inl (hsearch.first x hedge)
      · exact .inl hx
      · -- The dependents of a finished layer have been seen.
        rw [← h.within_seen, hsearch.seen_iff] at ha
        rcases ha with ha | ha
        · exact .inl (hsearch.closed a ha x hax)
        · exact .inr (List.mem_flatMap.mpr ⟨a, ha, hax⟩)
  nearer := by
    rw [listed_cons, List.pairwise_append]
    refine ⟨h.nearer, List.pairwise_of_forall_mem_list fun x hx y hy => ?_, fun x hx y hy => ?_⟩
    · rw [h.distance_eq hsearch hx, h.distance_eq hsearch hy]
    · have hwithin := (h.within_done x).mp hx
      rw [h.distance_eq hsearch hy]
      exact Nat.le_succ_of_le ((distance_le_iff hwithin).mpr hwithin)
  drains result hresult := by
    refine h.drains result ?_
    rw [← List.append_nil (layer.flatMap g.dependents)]
    refine Drains.of_unseen seen (fun x => ?_) ?_
    · rw [hsearch.seen_iff, List.mem_append, mem_listed_iff]
    · rwa [← listed_cons, List.nil_append]

/-- The affected cells are those that a search with a queue finds, and the search ends. Each cell
that depends on `c`, directly or through others, is listed once and no other cell is, so `c` is
listed if and only if it lies on a cycle. Nearer cells come first. Going through `c` and then the
list itself, the cells are listed in the order in which they are found as dependents. -/
theorem affectedBy_breadthFirst (changes : List Change) (c : Coord) :
    let g := ofChanges changes
    let affected := g.affectedBy c
    g.Drains [] (g.dependents c) affected ∧ affected.Nodup ∧
      (∀ x, x ∈ affected ↔ Relation.TransGen g.Edge c x) ∧
      affected.Pairwise (fun x y => g.distance c x ≤ g.distance c y) ∧
      affected.Pairwise (g.FoundBefore (c :: affected)) := by
  intro g affected
  have hconverse : g.Converse := (exact_ofChanges changes).converse
  obtain ⟨done, seen, haffected, -, h⟩ :=
    Search.exists_layers hconverse c (Layered.start g c) Layered.next
  replace haffected : affected = listed done := haffected
  have hlisted : (unseen ∅ ((c :: affected).flatMap g.dependents)).1 = affected := by
    have hpicked := congrArg Prod.fst h.picked
    rwa [List.append_nil, ← haffected] at hpicked
  refine ⟨h.drains affected ?_, ?_, mem_affectedBy_iff hconverse c, haffected ▸ h.nearer, ?_⟩
  · rw [List.append_nil, ← haffected]
    exact .empty affected
  · rw [← hlisted]
    exact nodup_unseen _ _
  · have horder := g.pairwise_foundBefore (c :: affected)
    rwa [hlisted] at horder

end LiveSheet.Graph
