import LiveSheet.Proofs.Recent
import Mathlib.Data.List.Nodup

/-! # The order of last uses

The keys of a bounded map form a list, the most recently used one first. Looking a key up moves it
to the front, putting an entry in adds its key at the front, and what gives way is the end of the
list. All that is needed for this is that keys and stamps belong to each other. -/

namespace LiveSheet

/-- The keys after a use of one of them, the most recently used one first. -/
def touch {κ : Type} [BEq κ] (key : κ) (keys : List κ) : List κ :=
  key :: keys.filter (· != key)

namespace Recent

/-! ## Entries by stamp -/

section Entries

variable {β : Type} {entries entries' : List (Nat × β)} (t : Std.TreeMap Nat β compare)

/-- Entries in the order of their stamps are given by what the entries are. -/
theorem eq_of_mem_iff (h : entries.Pairwise fun a b => a.1 < b.1)
    (h' : entries'.Pairwise fun a b => a.1 < b.1)
    (hmem : ∀ entry, entry ∈ entries ↔ entry ∈ entries') : entries = entries' := by
  have hnodup : ∀ {l : List (Nat × β)}, (l.Pairwise fun a b => a.1 < b.1) → l.Nodup :=
    fun hl => hl.imp fun hlt heq => Nat.ne_of_lt hlt (congrArg Prod.fst heq)
  refine ((List.perm_ext_iff_of_nodup (hnodup h) (hnodup h')).mpr hmem).eq_of_pairwise ?_ h h'
  exact fun a b _ _ hab hba => absurd hab (Nat.lt_asymm hba)

theorem pairwise_toList : t.toList.Pairwise fun a b => a.1 < b.1 :=
  Std.TreeMap.ordered_keys_toList.imp Nat.compare_eq_lt.mp

theorem mem_toList_iff {stamp : Nat} {value : β} :
    (stamp, value) ∈ t.toList ↔ t[stamp]? = some value :=
  Std.TreeMap.mem_toList_iff_getElem?_eq_some

/-- An entry with a new stamp comes last. -/
theorem toList_insert {stamp : Nat} (value : β)
    (h : ∀ stamp' value', t[stamp']? = some value' → stamp' < stamp) :
    (t.insert stamp value).toList = t.toList ++ [(stamp, value)] := by
  refine eq_of_mem_iff (pairwise_toList _) ?_ fun (stamp', value') => ?_
  · refine List.pairwise_append.mpr ⟨pairwise_toList t, List.pairwise_singleton _ _, ?_⟩
    intro entry hentry last hlast
    rw [List.mem_singleton.mp hlast]
    exact h entry.1 entry.2 ((mem_toList_iff t).mp hentry)
  · simp only [List.mem_append, List.mem_singleton, Prod.mk.injEq, mem_toList_iff,
      Std.TreeMap.getElem?_insert, Std.LawfulEqOrd.compare_eq_iff_eq]
    by_cases hstamp : stamp = stamp'
    · subst hstamp
      have hnone : t[stamp]? ≠ some value' := fun hold => Nat.lt_irrefl _ (h _ _ hold)
      simp [hnone, eq_comm]
    · simp [hstamp, Ne.symm hstamp]

theorem toList_erase (stamp : Nat) :
    (t.erase stamp).toList = t.toList.filter fun entry => entry.1 != stamp := by
  refine eq_of_mem_iff (pairwise_toList _) ((pairwise_toList t).filter _)
    fun (stamp', value) => ?_
  simp only [List.mem_filter, mem_toList_iff, Std.TreeMap.getElem?_erase,
    Std.LawfulEqOrd.compare_eq_iff_eq, bne_iff_ne]
  by_cases hstamp : stamp = stamp'
  · simp [hstamp]
  · simp [hstamp, Ne.symm hstamp]

end Entries

variable {κ ν : Type} [BEq κ] [Hashable κ]

/-- The keys, the most recently used one first. -/
def keys (m : Recent κ ν) : List κ :=
  (m.toList.map Prod.fst).reverse

/-- A key has a stamp just if the entry under the stamp is the one of the key, and all stamps are
in the past. -/
structure Consistent (m : Recent κ ν) : Prop where
  stamped : ∀ (key : κ) (stamp : Nat), m.lastUse[key]? = some stamp ↔
    ∃ value, m.byUse[stamp]? = some (key, value)
  past : ∀ (stamp : Nat) entry, m.byUse[stamp]? = some entry → stamp < m.clock

theorem keys_eq (m : Recent κ ν) :
    m.keys = (m.byUse.toList.map fun entry => entry.2.1).reverse := by
  rw [keys, toList, List.map_map]
  rfl

/-- The least recently used entry is the first one by stamp. -/
theorem oldest?_eq_head? (m : Recent κ ν) : m.oldest? = m.byUse.toList.head? := by
  rw [oldest?, Std.TreeMap.minKey?_eq_head?_keys, ← Std.TreeMap.map_fst_toList_eq_keys]
  cases hlist : m.byUse.toList with
  | nil => rfl
  | cons entry rest =>
      have hentry : m.byUse[entry.1]? = some entry.2 :=
        (mem_toList_iff m.byUse).mp (hlist ▸ List.mem_cons_self)
      simp only [List.map_cons, List.head?_cons, Option.bind_some, hentry, Option.map_some]

theorem length_keys (m : Recent κ ν) : m.keys.length = m.size := by
  rw [keys_eq, List.length_reverse, List.length_map, Std.TreeMap.length_toList]
  rfl

theorem keys_empty (capacity : Nat) : (empty capacity : Recent κ ν).keys = [] := by
  refine List.eq_nil_of_length_eq_zero ?_
  rw [length_keys]
  rfl

theorem keys_clear (m : Recent κ ν) : m.clear.keys = [] := by
  refine List.eq_nil_of_length_eq_zero ?_
  rw [length_keys]
  rfl

theorem consistent_clear (m : Recent κ ν) : m.clear.Consistent where
  stamped key stamp := by
    change (∅ : Std.HashMap κ Nat)[key]? = some stamp ↔
      ∃ value, (∅ : Std.TreeMap Nat (κ × ν) compare)[stamp]? = some (key, value)
    simp only [Std.HashMap.getElem?_empty, Std.TreeMap.getElem?_emptyc, reduceCtorEq,
      exists_false]
  past stamp entry h := by
    change (∅ : Std.TreeMap Nat (κ × ν) compare)[stamp]? = some entry at h
    rw [Std.TreeMap.getElem?_emptyc] at h
    cases h

theorem consistent_empty (capacity : Nat) : (empty capacity : Recent κ ν).Consistent :=
  consistent_clear (empty capacity)

variable {m : Recent κ ν} {key : κ}

theorem Consistent.mem_keys_iff (h : m.Consistent) :
    key ∈ m.keys ↔ ∃ stamp, m.lastUse[key]? = some stamp := by
  simp only [keys_eq, List.mem_reverse, List.mem_map, Prod.exists, exists_and_right,
    exists_eq_right, mem_toList_iff, h.stamped]

/-- Every key has one stamp, and every stamp one key. -/
theorem Consistent.key_eq_iff (h : m.Consistent) {key' : κ} {stamp stamp' : Nat} {value : ν}
    (hstamp : m.lastUse[key]? = some stamp) (hentry : m.byUse[stamp']? = some (key', value)) :
    stamp' = stamp ↔ key' = key := by
  constructor
  · rintro rfl
    obtain ⟨value', hvalue⟩ := (h.stamped key stamp').mp hstamp
    rw [hvalue] at hentry
    cases hentry
    rfl
  · rintro rfl
    have hstamp' := (h.stamped key' stamp').mpr ⟨value, hentry⟩
    rw [hstamp] at hstamp'
    cases hstamp'
    rfl

theorem Consistent.nodup_keys (h : m.Consistent) : m.keys.Nodup := by
  rw [keys_eq, List.nodup_reverse]
  refine List.pairwise_map.mpr ((pairwise_toList m.byUse).imp_of_mem fun {a b} ha hb hlt heq => ?_)
  have hb' := (mem_toList_iff m.byUse).mp hb
  have hstamp := (h.stamped b.2.1 b.1).mpr ⟨b.2.2, hb'⟩
  exact Nat.ne_of_lt hlt
    ((h.key_eq_iff hstamp ((mem_toList_iff m.byUse).mp ha)).mpr heq)

variable [LawfulBEq κ]

/-! ## Removing entries -/

/-- Removing a key together with its entry. -/
theorem Consistent.remove (h : m.Consistent) {stamp : Nat}
    (hstamp : m.lastUse[key]? = some stamp) :
    let m' : Recent κ ν :=
      { m with lastUse := m.lastUse.erase key, byUse := m.byUse.erase stamp }
    m'.Consistent ∧ m'.keys = m.keys.filter (· != key) := by
  intro m'
  have hother : ∀ {key' stamp' value}, m.byUse[stamp']? = some (key', value) →
      (stamp' = stamp ↔ key' = key) := fun hentry => h.key_eq_iff hstamp hentry
  refine ⟨⟨fun key' stamp' => ?_, fun stamp' entry hentry => ?_⟩, ?_⟩
  · simp only [m', Std.HashMap.getElem?_erase, Std.TreeMap.getElem?_erase,
      Std.LawfulEqOrd.compare_eq_iff_eq]
    by_cases hkey : key = key'
    · subst hkey
      simp only [beq_self_eq_true, if_true, reduceCtorEq, false_iff, not_exists]
      intro value hvalue
      split at hvalue
      · cases hvalue
      · next hne => exact hne ((hother hvalue).mpr rfl).symm
    · rw [if_neg (fun hbeq => hkey (beq_iff_eq.mp hbeq)), h.stamped]
      refine exists_congr fun value => ?_
      by_cases hstamp' : stamp = stamp'
      · simp only [hstamp', if_true, reduceCtorEq, iff_false]
        exact fun hvalue => hkey ((hother hvalue).mp hstamp'.symm).symm
      · rw [if_neg hstamp']
  · exact h.past stamp' entry ((part_of_erase m key stamp).byUse stamp' entry hentry)
  · rw [keys_eq, keys_eq, List.filter_reverse, List.filter_map]
    change ((m.byUse.erase stamp).toList.map _).reverse = _
    rw [toList_erase]
    congr 2
    refine List.filter_congr fun (stamp', key', value) hentry => ?_
    rw [Bool.eq_iff_iff, bne_iff_ne, Function.comp_apply, bne_iff_ne, Ne, Ne,
      hother ((mem_toList_iff m.byUse).mp hentry)]

theorem Consistent.erase (h : m.Consistent) (key : κ) :
    (m.erase key).Consistent ∧ (m.erase key).keys = m.keys.filter (· != key) := by
  unfold Recent.erase
  cases hstamp : m.lastUse[key]? with
  | none =>
      refine ⟨h, (List.filter_eq_self.mpr fun key' hkey' => bne_iff_ne.mpr ?_).symm⟩
      rintro rfl
      obtain ⟨stamp, hsome⟩ := h.mem_keys_iff.mp hkey'
      rw [hstamp] at hsome
      cases hsome
  | some stamp => exact h.remove hstamp

/-- The entry with the oldest stamp is the one of the last key. -/
theorem Consistent.dropOldest (h : m.Consistent) :
    m.dropOldest.Consistent ∧ m.dropOldest.keys = m.keys.dropLast := by
  have hkeys := keys_eq m
  unfold Recent.dropOldest
  rw [oldest?_eq_head?]
  cases hlist : m.byUse.toList with
  | nil =>
      rw [hlist] at hkeys
      refine ⟨h, ?_⟩
      change m.keys = m.keys.dropLast
      rw [hkeys]
      rfl
  | cons entry rest =>
      obtain ⟨stamp, key, value⟩ := entry
      rw [hlist, List.map_cons, List.reverse_cons] at hkeys
      have hentry : m.byUse[stamp]? = some (key, value) :=
        (mem_toList_iff m.byUse).mp (hlist ▸ List.mem_cons_self)
      obtain ⟨hconsistent, hremoved⟩ := h.remove ((h.stamped key stamp).mpr ⟨value, hentry⟩)
      refine ⟨hconsistent, hremoved.trans ?_⟩
      have hnodup := h.nodup_keys
      rw [hkeys] at hnodup ⊢
      have hrest : ∀ key' ∈ (rest.map fun entry => entry.2.1).reverse, (key' != key) = true := by
        intro key' hkey'
        rw [bne_iff_ne]
        rintro rfl
        exact List.disjoint_of_nodup_append hnodup hkey' List.mem_cons_self
      rw [List.filter_append, List.filter_eq_self.mpr hrest, List.dropLast_concat]
      simp

/-! ## Adding entries -/

theorem Consistent.push (h : m.Consistent) (hkey : key ∉ m.keys) (value : ν) :
    (m.push key value).Consistent ∧ (m.push key value).keys = key :: m.keys := by
  refine ⟨⟨fun key' stamp => ?_, fun stamp entry hentry => ?_⟩, ?_⟩
  · simp only [Recent.push, Std.HashMap.getElem?_insert, Std.TreeMap.getElem?_insert,
      Std.LawfulEqOrd.compare_eq_iff_eq]
    by_cases hkey' : key = key'
    · subst hkey'
      rw [if_pos (beq_self_eq_true key), Option.some.injEq]
      by_cases hstamp : m.clock = stamp
      · simp [hstamp]
      · simp only [hstamp, if_false, false_iff, not_exists]
        exact fun value' hentry => hkey
          (h.mem_keys_iff.mpr ⟨stamp, (h.stamped key stamp).mpr ⟨value', hentry⟩⟩)
    · rw [if_neg (fun hbeq => hkey' (beq_iff_eq.mp hbeq)), h.stamped]
      refine exists_congr fun value' => ?_
      by_cases hstamp : m.clock = stamp
      · -- No entry had the stamp that the clock gives.
        simp only [hstamp, if_true, Option.some.injEq, Prod.mk.injEq, hkey', false_and, iff_false]
        exact fun hentry => Nat.ne_of_lt (h.past stamp _ hentry) hstamp.symm
      · rw [if_neg hstamp]
  · simp only [Recent.push, Std.TreeMap.getElem?_insert, Std.LawfulEqOrd.compare_eq_iff_eq]
      at hentry ⊢
    split at hentry
    · next hstamp => exact hstamp ▸ Nat.lt_succ_self _
    · exact Nat.lt_succ_of_lt (h.past stamp entry hentry)
  · rw [keys_eq, keys_eq]
    change ((m.byUse.insert m.clock (key, value)).toList.map _).reverse = _
    rw [toList_insert _ _ h.past, List.map_append, List.reverse_append]
    rfl

/-- A key that is used comes first. -/
theorem Consistent.use (h : m.Consistent) (key : κ) (value : ν) :
    ((m.erase key).push key value).Consistent ∧
      ((m.erase key).push key value).keys = touch key m.keys := by
  obtain ⟨hconsistent, hkeys⟩ := h.erase key
  have hkey : key ∉ (m.erase key).keys := by simp [hkeys]
  obtain ⟨hpushed, hpush⟩ := hconsistent.push hkey value
  exact ⟨hpushed, by rw [hpush, hkeys, touch]⟩

end Recent

/-! ## Lists of keys -/

section Touch

variable {κ : Type} [BEq κ] {key : κ} {keys : List κ} {n : Nat}

theorem length_touch_le (key : κ) (keys : List κ) :
    (touch key keys).length ≤ keys.length + 1 :=
  Nat.succ_le_succ (List.length_filter_le _ _)

variable [LawfulBEq κ]

theorem mem_touch_iff {other : κ} : other ∈ touch key keys ↔ other = key ∨ other ∈ keys := by
  rw [touch, List.mem_cons, List.mem_filter, bne_iff_ne]
  by_cases hother : other = key <;> simp [hother]

theorem nodup_touch (h : keys.Nodup) (key : κ) : (touch key keys).Nodup :=
  List.nodup_cons.mpr ⟨by simp, h.filter _⟩

theorem length_touch_of_mem (h : key ∈ keys) : (touch key keys).length ≤ keys.length :=
  List.length_filter_lt_length_iff_exists.mpr ⟨key, h, by simp⟩

theorem filter_take (h : keys.Nodup) (key : κ) (n : Nat) :
    ((keys.take (n + 1)).filter (· != key)).take n = (keys.filter (· != key)).take n := by
  induction keys generalizing n with
  | nil => rfl
  | cons first rest ih =>
      obtain ⟨hfirst, hrest⟩ := List.nodup_cons.mp h
      rw [List.take_succ_cons]
      by_cases hkey : first = key
      · -- The key is gone at once, and what follows does without it.
        subst hkey
        have hself : ∀ other ∈ rest, (other != first) = true := fun other hother =>
          bne_iff_ne.mpr fun heq => hfirst (heq ▸ hother)
        rw [List.filter_cons_of_neg (by simp), List.filter_cons_of_neg (by simp),
          List.filter_eq_self.mpr hself,
          List.filter_eq_self.mpr fun other hother => hself other (List.mem_of_mem_take hother),
          List.take_take, Nat.min_self]
      · have hkey' : (first != key) = true := bne_iff_ne.mpr hkey
        rw [List.filter_cons_of_pos (p := (· != key)) hkey',
          List.filter_cons_of_pos (p := (· != key)) hkey']
        cases n with
        | zero => rfl
        | succ n => rw [List.take_succ_cons, List.take_succ_cons, ih hrest]

/-- It makes no difference whether the end of the list is forgotten before a use as well as after
it. -/
theorem take_touch_take (h : keys.Nodup) (key : κ) (n : Nat) :
    (touch key (keys.take n)).take n = (touch key keys).take n := by
  cases n with
  | zero => rfl
  | succ n => rw [touch, touch, List.take_succ_cons, List.take_succ_cons, filter_take h]

end Touch

namespace Recent

section Uses

variable {κ ν : Type} [BEq κ] [Hashable κ] {m : Recent κ ν}

/-- The keys and stamps of a map belong to each other, and there is room for all entries. -/
structure Fits (m : Recent κ ν) (capacity : Nat) : Prop where
  consistent : m.Consistent
  capacity_eq : m.capacity = capacity
  size_le : m.size ≤ capacity

variable {capacity : Nat}

theorem fits_empty (capacity : Nat) : (empty capacity : Recent κ ν).Fits capacity :=
  ⟨consistent_empty capacity, rfl, Nat.zero_le _⟩

theorem Fits.clear (h : m.Fits capacity) : m.clear.Fits capacity :=
  ⟨consistent_clear m, h.capacity_eq, Nat.zero_le _⟩

theorem capacity_erase (m : Recent κ ν) (key : κ) : (m.erase key).capacity = m.capacity := by
  unfold Recent.erase
  split <;> rfl

theorem capacity_dropOldest (m : Recent κ ν) : m.dropOldest.capacity = m.capacity := by
  unfold Recent.dropOldest
  split <;> rfl

variable [LawfulBEq κ]

/-- A key that is looked up and has an entry comes first. Looking up another key changes
nothing. -/
theorem Fits.get (h : m.Fits capacity) (key : κ) :
    (key ∈ m.keys ∧ ∃ value m', m.get key = (some value, m') ∧ m'.Fits capacity ∧
        m'.keys = (touch key m.keys).take capacity) ∨
      (key ∉ m.keys ∧ m.get key = (none, m)) := by
  unfold Recent.get
  by_cases hkey : key ∈ m.keys
  · obtain ⟨stamp, hstamp⟩ := h.consistent.mem_keys_iff.mp hkey
    obtain ⟨value, hvalue⟩ := (h.consistent.stamped key stamp).mp hstamp
    obtain ⟨hconsistent, hkeys⟩ := h.consistent.use key value
    have hlength : (touch key m.keys).length ≤ capacity :=
      Nat.le_trans (length_touch_of_mem hkey) (length_keys m ▸ h.size_le)
    refine .inl ⟨hkey, value, _, by rw [hstamp, Option.bind_some, hvalue],
      ⟨hconsistent, ?_, ?_⟩, ?_⟩
    · exact (capacity_erase m key).trans h.capacity_eq
    · rwa [← length_keys, hkeys]
    · rw [hkeys, List.take_of_length_le hlength]
  · have hnone : m.lastUse[key]? = none := by
      rw [Option.eq_none_iff_forall_ne_some]
      exact fun stamp hstamp => hkey (h.consistent.mem_keys_iff.mpr ⟨stamp, hstamp⟩)
    exact .inr ⟨hkey, by rw [hnone, Option.bind_none]⟩

/-- A key that is put in comes first, and what there is no room for any more is the last one. -/
theorem Fits.put (h : m.Fits capacity) (key : κ) (value : ν) :
    (m.put key value).Fits capacity ∧
      (m.put key value).keys = (touch key m.keys).take capacity := by
  obtain ⟨hconsistent, hkeys⟩ := h.consistent.use key value
  have hlength := length_touch_le key m.keys
  have hcapacity : ((m.erase key).push key value).capacity = capacity :=
    (capacity_erase m key).trans h.capacity_eq
  have hsize := length_keys ((m.erase key).push key value)
  rw [length_keys] at hlength
  rw [hkeys] at hsize
  unfold Recent.put
  simp only
  split
  · next hfull =>
    obtain ⟨hdropped, hlast⟩ := hconsistent.dropOldest
    have hkeys' := hlast.trans (List.dropLast_eq_take.trans (congrArg _ hkeys))
    rw [hcapacity, ← hsize] at hfull
    have := h.size_le
    have hpred : (touch key m.keys).length - 1 = capacity := by omega
    rw [hkeys, hpred] at hkeys'
    refine ⟨⟨hdropped, (capacity_dropOldest _).trans hcapacity, ?_⟩, hkeys'⟩
    rw [← length_keys, hkeys']
    exact List.length_take_le _ _
  · next hroom =>
    rw [hcapacity, ← hsize, Nat.not_lt] at hroom
    refine ⟨⟨hconsistent, hcapacity, hsize ▸ hroom⟩, ?_⟩
    rw [hkeys, List.take_of_length_le hroom]

end Uses

end Recent

end LiveSheet
