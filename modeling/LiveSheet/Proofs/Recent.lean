import LiveSheet.Recent

/-! # What a bounded map remembers

An entry is found through the stamp of its key's last use. As long as no stamp of one key finds
the entry of another, forgetting entries never changes what is remembered for a key: a bounded
map holds nothing that was not put in. -/

namespace LiveSheet.Recent

variable {κ ν : Type} [BEq κ] [Hashable κ]

/-- The map remembers `value` for `key`. -/
def Holds (m : Recent κ ν) (key : κ) (value : ν) : Prop :=
  ∃ stamp : Nat, m.lastUse[key]? = some stamp ∧ m.byUse[stamp]? = some (key, value)

/-- A stamp is in the past, and the entry under it belongs to the key that was stamped. -/
def Aligned (m : Recent κ ν) : Prop :=
  ∀ (key : κ) (stamp : Nat), m.lastUse[key]? = some stamp →
    stamp < m.clock ∧ ∀ entry, m.byUse[stamp]? = some entry → entry.1 = key

/-- `part` is `m` without some of its stamps and entries. -/
structure Part (part m : Recent κ ν) : Prop where
  clock_eq : part.clock = m.clock
  lastUse : ∀ (key : κ) (stamp : Nat), part.lastUse[key]? = some stamp →
    m.lastUse[key]? = some stamp
  byUse : ∀ (stamp : Nat) entry, part.byUse[stamp]? = some entry → m.byUse[stamp]? = some entry

theorem Part.refl (m : Recent κ ν) : Part m m :=
  ⟨rfl, fun _ _ h => h, fun _ _ h => h⟩

theorem Part.aligned {part m : Recent κ ν} (h : Part part m) (hm : m.Aligned) :
    part.Aligned := by
  intro key stamp hstamp
  obtain ⟨hpast, hentry⟩ := hm key stamp (h.lastUse key stamp hstamp)
  exact ⟨h.clock_eq ▸ hpast, fun entry he => hentry entry (h.byUse stamp entry he)⟩

theorem Part.holds {part m : Recent κ ν} (h : Part part m) {key : κ} {value : ν}
    (hold : part.Holds key value) : m.Holds key value := by
  obtain ⟨stamp, hstamp, hentry⟩ := hold
  exact ⟨stamp, h.lastUse key stamp hstamp, h.byUse stamp _ hentry⟩

theorem aligned_empty (capacity : Nat) : (empty capacity : Recent κ ν).Aligned := by
  intro key stamp hstamp
  change (∅ : Std.HashMap κ Nat)[key]? = some stamp at hstamp
  rw [Std.HashMap.getElem?_empty] at hstamp
  cases hstamp

theorem not_holds_empty (capacity : Nat) (key : κ) (value : ν) :
    ¬(empty capacity : Recent κ ν).Holds key value := by
  rintro ⟨stamp, hstamp, -⟩
  change (∅ : Std.HashMap κ Nat)[key]? = some stamp at hstamp
  rw [Std.HashMap.getElem?_empty] at hstamp
  cases hstamp

theorem part_clear (m : Recent κ ν) : Part m.clear m where
  clock_eq := rfl
  lastUse key stamp h := by
    change (∅ : Std.HashMap κ Nat)[key]? = some stamp at h
    rw [Std.HashMap.getElem?_empty] at h
    cases h
  byUse stamp entry h := by
    change (∅ : Std.TreeMap Nat (κ × ν) compare)[stamp]? = some entry at h
    rw [Std.TreeMap.getElem?_emptyc] at h
    cases h

variable [LawfulBEq κ]

/-- Removing one key and one stamp leaves a part of the map. -/
theorem part_of_erase (m : Recent κ ν) (key : κ) (stamp : Nat) :
    Part { m with lastUse := m.lastUse.erase key, byUse := m.byUse.erase stamp } m where
  clock_eq := rfl
  lastUse other stamp' h := by
    rw [Std.HashMap.getElem?_erase] at h
    split at h
    · cases h
    · exact h
  byUse stamp' entry h := by
    rw [Std.TreeMap.getElem?_erase] at h
    split at h
    · cases h
    · exact h

theorem part_erase (m : Recent κ ν) (key : κ) : Part (m.erase key) m := by
  unfold erase
  split
  · exact Part.refl m
  · exact part_of_erase m key _

theorem part_dropOldest (m : Recent κ ν) : Part m.dropOldest m := by
  unfold dropOldest
  split
  · exact Part.refl m
  · exact part_of_erase m _ _

theorem Aligned.push {m : Recent κ ν} (h : m.Aligned) (key : κ) (value : ν) :
    (m.push key value).Aligned := by
  intro other stamp hstamp
  simp only [Recent.push, Std.HashMap.getElem?_insert, beq_iff_eq] at hstamp
  simp only [Recent.push, Std.TreeMap.getElem?_insert, Std.LawfulEqOrd.compare_eq_iff_eq]
  split at hstamp
  · next hkey =>
    cases hstamp
    refine ⟨Nat.lt_succ_self _, ?_⟩
    intro entry hentry
    rw [if_pos rfl] at hentry
    cases hentry
    exact beq_iff_eq.mp hkey
  · next hkey =>
    obtain ⟨hpast, hold⟩ := h other stamp hstamp
    refine ⟨Nat.lt_succ_of_lt hpast, ?_⟩
    intro entry hentry
    rw [if_neg (Nat.ne_of_gt hpast)] at hentry
    exact hold entry hentry

theorem Aligned.holds_of_push {m : Recent κ ν} (h : m.Aligned) {key other : κ}
    {value found : ν} (hold : (m.push key value).Holds other found) :
    (other = key ∧ found = value) ∨ m.Holds other found := by
  obtain ⟨stamp, hstamp, hentry⟩ := hold
  simp only [Recent.push, Std.HashMap.getElem?_insert, beq_iff_eq] at hstamp
  simp only [Recent.push, Std.TreeMap.getElem?_insert, Std.LawfulEqOrd.compare_eq_iff_eq]
    at hentry
  split at hstamp
  · cases hstamp
    rw [if_pos rfl] at hentry
    cases hentry
    exact .inl ⟨rfl, rfl⟩
  · -- Old stamps are in the past, so none of them finds the new entry.
    rw [if_neg (Nat.ne_of_gt (h other stamp hstamp).1)] at hentry
    exact .inr ⟨stamp, hstamp, hentry⟩

theorem Aligned.put {m : Recent κ ν} (h : m.Aligned) (key : κ) (value : ν) :
    (m.put key value).Aligned := by
  have hpush := ((part_erase m key).aligned h).push key value
  unfold Recent.put
  simp only
  split
  · exact (part_dropOldest _).aligned hpush
  · exact hpush

/-- After an entry is put in, the map holds that entry and what it held before. -/
theorem Aligned.holds_of_put {m : Recent κ ν} (h : m.Aligned) {key other : κ}
    {value found : ν} (hold : (m.put key value).Holds other found) :
    (other = key ∧ found = value) ∨ m.Holds other found := by
  have herase := (part_erase m key).aligned h
  have hpush : ((m.erase key).push key value).Holds other found := by
    unfold Recent.put at hold
    simp only at hold
    split at hold
    · exact (part_dropOldest _).holds hold
    · exact hold
  exact (herase.holds_of_push hpush).imp_right (part_erase m key).holds

/-- What is found was held, and looking for it adds nothing. -/
theorem Aligned.get {m : Recent κ ν} (h : m.Aligned) (key : κ) :
    (∀ value, (m.get key).1 = some value → m.Holds key value) ∧ (m.get key).2.Aligned ∧
      ∀ other found, (m.get key).2.Holds other found → m.Holds other found := by
  unfold Recent.get
  split
  · exact ⟨fun _ hnone => (Option.some_ne_none _ hnone.symm).elim, h, fun _ _ hold => hold⟩
  · next k value hfound =>
    obtain ⟨stamp, hstamp, hentry⟩ := Option.bind_eq_some_iff.mp hfound
    have hkey : k = key := (h key stamp hstamp).2 _ hentry
    have hheld : m.Holds key value := ⟨stamp, hstamp, hkey ▸ hentry⟩
    have herase := (part_erase m key).aligned h
    refine ⟨?_, herase.push key value, ?_⟩
    · intro value' hvalue
      cases hvalue
      exact hheld
    · intro other found hold
      rcases herase.holds_of_push hold with ⟨rfl, rfl⟩ | hold
      · exact hheld
      · exact (part_erase m key).holds hold

end LiveSheet.Recent
