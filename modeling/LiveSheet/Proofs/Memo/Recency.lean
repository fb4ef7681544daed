import LiveSheet.Proofs.Memo
import LiveSheet.Proofs.Recent.Recency
import Mathlib.Data.Set.Card

/-! # Which results are remembered

A memory remembers the results that were asked for last. A list of keys says which these are: a
call that is answered with a result brings its key to the front, a call that fails leaves the list
as it is, and a clear empties it. The memory holds the keys at the front of this list, as many as
it has room for. -/

namespace LiveSheet

namespace MemoStats

/-- The counts after a call that is answered from memory. -/
def hit (s : MemoStats) : MemoStats :=
  { s with hits := s.hits + 1 }

/-- The counts after a call that is not answered from memory. -/
def miss (s : MemoStats) (evaluated : Bool) : MemoStats :=
  { s with misses := s.misses + 1, evaluations := s.evaluations + evaluated.toNat }

theorem hit_ne_miss (s : MemoStats) (evaluated : Bool) : s.hit ≠ s.miss evaluated := fun h =>
  Nat.succ_ne_self s.hits (congrArg MemoStats.hits h)

end MemoStats

namespace Memo

namespace Call

/-- The key of the result of a formula whose inputs have the given bit patterns. -/
def key (raw : String) (patterns : List UInt64) : MemoKey :=
  ⟨(Formula.ofRaw raw).source, patterns⟩

/-- The call is answered with the result that has the key. -/
def Uses (key : MemoKey) : Call → Prop
  | evaluate raw patterns =>
      key = Call.key raw patterns ∧ ∃ x, (Formula.ofRaw raw).evalWith (inputs patterns) = .ok x
  | clear => False

def asks : Call → Bool
  | evaluate _ _ => true
  | clear => false

/-- The keys after a call, the most recently used one first. -/
def refresh (keys : List MemoKey) : Call → List MemoKey
  | evaluate raw patterns =>
      match (Formula.ofRaw raw).evalWith (inputs patterns) with
      | .ok _ => touch (Call.key raw patterns) keys
      | .error _ => keys
  | clear => []

/-- A call forgets all keys, uses one of them, or uses none. -/
theorem refresh_cases (call : Call) (keys : List MemoKey) :
    (call = clear ∧ call.refresh keys = []) ∨
      (call ≠ clear ∧ ∃ key, (∀ other, call.Uses other ↔ other = key) ∧
        call.refresh keys = touch key keys) ∨
      (call ≠ clear ∧ (∀ key, ¬call.Uses key) ∧ call.refresh keys = keys) := by
  cases call with
  | clear => exact .inl ⟨rfl, rfl⟩
  | evaluate raw patterns =>
      refine .inr ?_
      cases hvalue : (Formula.ofRaw raw).evalWith (inputs patterns) with
      | ok x =>
          exact .inl ⟨nofun, Call.key raw patterns, by simp [Uses, hvalue],
            by simp only [refresh, hvalue]⟩
      | error e => exact .inr ⟨nofun, by simp [Uses, hvalue], by simp only [refresh, hvalue]⟩

end Call

/-- The keys that have been used since the last clear, the most recently used one first. -/
def recency (calls : List Call) : List MemoKey :=
  calls.foldl Call.refresh []

/-- These are the calls since the latest use of a key, which has not been forgotten by any of
them. -/
def SinceUse (calls : List Call) (key : MemoKey) (later : List Call) : Prop :=
  (∃ earlier last, calls = earlier ++ last :: later ∧ last.Uses key) ∧
    ∀ call ∈ later, call ≠ .clear ∧ ¬call.Uses key

/-- The key has been used since the last clear, and fewer than `capacity` other keys have been
used since its latest use. -/
def RecentlyUsed (capacity : Nat) (calls : List Call) (key : MemoKey) : Prop :=
  ∃ later, SinceUse calls key later ∧
    {other | ∃ call ∈ later, call.Uses other}.ncard < capacity

variable {calls later : List Call} {key : MemoKey} {capacity : Nat}

theorem recency_append (first rest : List Call) :
    recency (first ++ rest) = rest.foldl Call.refresh (recency first) :=
  List.foldl_append

theorem nodup_foldl_refresh {keys : List MemoKey} (h : keys.Nodup) (calls : List Call) :
    (calls.foldl Call.refresh keys).Nodup := by
  induction calls generalizing keys with
  | nil => exact h
  | cons call rest ih =>
      refine ih ?_
      rcases call.refresh_cases keys with ⟨-, hkeys⟩ | ⟨-, key, -, hkeys⟩ | ⟨-, -, hkeys⟩
      · rw [hkeys]
        exact List.nodup_nil
      · rw [hkeys]
        exact nodup_touch h key
      · rwa [hkeys]

theorem nodup_recency (calls : List Call) : (recency calls).Nodup :=
  nodup_foldl_refresh List.nodup_nil calls

/-- As long as a key is not used again, the keys before it are those that have been used since. -/
theorem foldl_refresh_split (hlater : ∀ call ∈ later, call ≠ .clear ∧ ¬call.Uses key)
    (newer older : List MemoKey) :
    ∃ newer' older', later.foldl Call.refresh (newer ++ key :: older) = newer' ++ key :: older' ∧
      ∀ other, other ∈ newer' ↔ other ∈ newer ∨ ∃ call ∈ later, call.Uses other := by
  induction later generalizing newer older with
  | nil => exact ⟨newer, older, rfl, by simp⟩
  | cons call rest ih =>
      have hrest := ih fun call' h => hlater call' (List.mem_cons_of_mem _ h)
      obtain ⟨hclear, hunused⟩ := hlater call List.mem_cons_self
      rcases call.refresh_cases (newer ++ key :: older) with
        ⟨heq, -⟩ | ⟨-, used, huses, hkeys⟩ | ⟨-, huses, hkeys⟩
      · exact (hclear heq).elim
      · have hne : (key != used) = true := bne_iff_ne.mpr fun heq => hunused ((huses key).mpr heq)
        have hsplit : touch used (newer ++ key :: older) =
            touch used newer ++ key :: older.filter (· != used) := by
          rw [touch, touch, List.filter_append,
            List.filter_cons_of_pos (p := (· != used)) hne, List.cons_append]
        obtain ⟨newer', older', hfold, hmem⟩ := hrest (touch used newer) (older.filter (· != used))
        refine ⟨newer', older', by rw [List.foldl_cons, hkeys, hsplit, hfold], fun other => ?_⟩
        rw [hmem, mem_touch_iff, List.exists_mem_cons_iff, huses, or_left_comm, or_assoc]
      · obtain ⟨newer', older', hfold, hmem⟩ := hrest newer older
        refine ⟨newer', older', by rw [List.foldl_cons, hkeys, hfold], fun other => ?_⟩
        rw [hmem, List.exists_mem_cons_iff, or_iff_right (huses other)]

theorem SinceUse.append (h : SinceUse calls key later) {call : Call} (hclear : call ≠ .clear)
    (hunused : ¬call.Uses key) : SinceUse (calls ++ [call]) key (later ++ [call]) := by
  obtain ⟨⟨earlier, last, rfl, hlast⟩, hlater⟩ := h
  refine ⟨⟨earlier, last, by simp, hlast⟩, fun call' hcall => ?_⟩
  rcases List.mem_append.mp hcall with hcall | hcall
  · exact hlater call' hcall
  · rw [List.mem_singleton.mp hcall]
    exact ⟨hclear, hunused⟩

/-- What is listed has been used and not been forgotten since. -/
theorem exists_sinceUse (h : key ∈ recency calls) : ∃ later, SinceUse calls key later := by
  induction calls using List.reverseRecOn with
  | nil => cases h
  | append_singleton calls call ih =>
      rw [recency_append] at h
      change key ∈ call.refresh (recency calls) at h
      rcases call.refresh_cases (recency calls) with
        ⟨-, hkeys⟩ | ⟨hclear, used, huses, hkeys⟩ | ⟨hclear, huses, hkeys⟩
      · rw [hkeys] at h
        cases h
      · by_cases hkey : key = used
        · exact ⟨[], ⟨calls, call, rfl, (huses key).mpr hkey⟩, by simp⟩
        · rw [hkeys, mem_touch_iff, or_iff_right hkey] at h
          obtain ⟨later, hlater⟩ := ih h
          exact ⟨later ++ [call], hlater.append hclear fun hcall => hkey ((huses key).mp hcall)⟩
      · rw [hkeys] at h
        obtain ⟨later, hlater⟩ := ih h
        exact ⟨later ++ [call], hlater.append hclear (huses key)⟩

/-- A key stands behind those that have been used since its latest use. -/
theorem SinceUse.recency_eq (h : SinceUse calls key later) :
    ∃ newer older, recency calls = newer ++ key :: older ∧
      {other | ∃ call ∈ later, call.Uses other}.ncard = newer.length := by
  obtain ⟨⟨earlier, last, hcalls, hlast⟩, hlater⟩ := h
  have hfirst : last.refresh (recency earlier) = touch key (recency earlier) := by
    rcases last.refresh_cases (recency earlier) with
      ⟨rfl, -⟩ | ⟨-, used, huses, hkeys⟩ | ⟨-, huses, -⟩
    · exact hlast.elim
    · rw [hkeys, (huses key).mp hlast]
    · exact (huses key hlast).elim
  obtain ⟨newer, older, hsplit, hnewer⟩ := foldl_refresh_split hlater [] _
  have hkeys : recency calls = newer ++ key :: older := by
    rw [hcalls, recency_append, List.foldl_cons, hfirst]
    exact hsplit
  have hnodup : newer.Nodup := List.Nodup.of_append_left (hkeys ▸ nodup_recency calls)
  have hset : {other | ∃ call ∈ later, call.Uses other} = ↑newer.toFinset := by
    ext other
    simp [hnewer]
  exact ⟨newer, older, hkeys, by
    rw [hset, Set.ncard_coe_finset, List.toFinset_card_of_nodup hnodup]⟩

/-- The keys at the front of the list are those that have been used recently. -/
theorem mem_take_recency_iff :
    key ∈ (recency calls).take capacity ↔ RecentlyUsed capacity calls key := by
  have hplace : ∀ {later}, SinceUse calls key later → (key ∈ (recency calls).take capacity ↔
      {other | ∃ call ∈ later, call.Uses other}.ncard < capacity) := by
    intro later hlater
    obtain ⟨newer, older, hkeys, hlength⟩ := hlater.recency_eq
    have hnodup := nodup_recency calls
    rw [hkeys] at hnodup ⊢
    rw [hlength]
    constructor
    · intro hmem
      by_contra hle
      rw [List.take_append_of_le_length (Nat.not_lt.mp hle)] at hmem
      exact List.disjoint_of_nodup_append hnodup (List.mem_of_mem_take hmem) List.mem_cons_self
    · intro hlt
      obtain ⟨n, hn⟩ := Nat.exists_eq_add_of_lt hlt
      rw [hn, Nat.add_assoc, List.take_length_add_append, List.take_succ_cons]
      exact List.mem_append_right _ List.mem_cons_self
  constructor
  · intro hmem
    obtain ⟨later, hlater⟩ := exists_sinceUse (List.mem_of_mem_take hmem)
    exact ⟨later, hlater, (hplace hlater).mp hmem⟩
  · rintro ⟨later, hlater, hfew⟩
    exact (hplace hlater).mpr hfew

/-! ## Calls -/

/-- A memory of the given capacity after the given calls. -/
structure Follows (m : Memo) (capacity : Nat) (calls : List Call) : Prop where
  sound : m.Sound .ofPatterns
  fits : m.results.Fits capacity
  keys_eq : m.results.keys = (recency calls).take capacity
  asked : m.stats.hits + m.stats.misses = calls.countP Call.asks

theorem follows_empty (capacity : Nat) : (empty capacity).Follows capacity [] where
  sound := sound_empty capacity
  fits := Recent.fits_empty capacity
  keys_eq := by
    rw [recency, List.foldl_nil, List.take_nil]
    exact Recent.keys_empty capacity
  asked := rfl

theorem Follows.clear {m : Memo} (h : m.Follows capacity calls) :
    m.clear.Follows capacity (calls ++ [.clear]) where
  sound := h.sound.clear
  fits := h.fits.clear
  keys_eq := by
    rw [recency_append]
    change m.results.clear.keys = ([] : List MemoKey).take capacity
    rw [Recent.keys_clear, List.take_nil]
  asked := by
    rw [List.countP_append]
    exact h.asked

theorem evaluateUnder_of_hit {m : Memo} {key : MemoKey} {x : Float}
    {results : Recent MemoKey Float} (hget : m.results.get key = (some x, results)) (f : Formula)
    (inputs : List Float) :
    m.evaluateUnder key f inputs = (.ok x, ⟨results, m.stats.hit⟩) := by
  simp only [evaluateUnder, hget]
  rfl

theorem evaluateUnder_of_miss {m : Memo} {key : MemoKey}
    (hget : m.results.get key = (none, m.results)) (f : Formula) (inputs : List Float) :
    m.evaluateUnder key f inputs = (f.evalWith inputs,
      ⟨match f.evalWith inputs with
        | .ok x => m.results.put key x
        | .error _ => m.results, m.stats.miss (f.substitute inputs).isOk⟩) := by
  simp only [evaluateUnder, hget, Formula.evalWith]
  cases f.substitute inputs with
  | error e => rfl
  | ok text =>
      simp only
      cases Expr.evalText text <;> rfl

theorem perform_evaluate (m : Memo) (raw : String) (patterns : List UInt64) :
    m.perform (.evaluate raw patterns) =
      let (result, m') :=
        m.evaluateUnder (Call.key raw patterns) (.ofRaw raw) (Call.inputs patterns)
      (some result, m') := rfl

section Evaluate

variable {m : Memo} (h : m.Follows capacity calls) (raw : String) (patterns : List UInt64)
include h

theorem Follows.hit (hkey : Call.key raw patterns ∈ m.results.keys) :
    let m' := (m.perform (.evaluate raw patterns)).2
    m'.stats = m.stats.hit ∧ m'.Follows capacity (calls ++ [.evaluate raw patterns]) ∧
      ∃ x, (Formula.ofRaw raw).evalWith (Call.inputs patterns) = .ok x := by
  intro m'
  rcases h.fits.get (Call.key raw patterns) with
    ⟨-, x, results, hget, hfits, hkeys⟩ | ⟨hnot, -⟩
  · have heval : m.perform (.evaluate raw patterns) =
        (some (.ok x), ⟨results, m.stats.hit⟩) := by
      rw [perform_evaluate, evaluateUnder_of_hit hget]
    obtain ⟨hanswer, hsound⟩ := h.sound.perform (.evaluate raw patterns)
    have hm' : m' = ⟨results, m.stats.hit⟩ := congrArg Prod.snd heval
    have hvalue : (Formula.ofRaw raw).evalWith (Call.inputs patterns) = .ok x := by
      rw [heval] at hanswer
      exact (Option.some.inj hanswer).symm
    refine ⟨congrArg Memo.stats hm', ⟨hsound, hm' ▸ hfits, ?_, ?_⟩, x, hvalue⟩
    · rw [hm', hkeys, h.keys_eq, take_touch_take (nodup_recency calls), recency_append]
      simp only [List.foldl_cons, List.foldl_nil, Call.refresh, hvalue]
    · rw [hm', List.countP_append, ← h.asked]
      exact Nat.add_right_comm _ _ _
  · exact (hnot hkey).elim

theorem Follows.miss (hkey : Call.key raw patterns ∉ m.results.keys) :
    let m' := (m.perform (.evaluate raw patterns)).2
    m'.stats = m.stats.miss ((Formula.ofRaw raw).substitute (Call.inputs patterns)).isOk ∧
      m'.Follows capacity (calls ++ [.evaluate raw patterns]) ∧
      ((∃ x, (Formula.ofRaw raw).evalWith (Call.inputs patterns) = .ok x) ∨
        m'.results = m.results) := by
  intro m'
  rcases h.fits.get (Call.key raw patterns) with ⟨hmem, -⟩ | ⟨-, hget⟩
  · exact (hkey hmem).elim
  · have heval : m' = (m.evaluateUnder (Call.key raw patterns) (.ofRaw raw)
        (Call.inputs patterns)).2 := rfl
    rw [evaluateUnder_of_miss hget] at heval
    have hsound : m'.Sound .ofPatterns := (h.sound.perform (.evaluate raw patterns)).2
    have hstats := congrArg Memo.stats heval
    have hasked : m'.stats.hits + m'.stats.misses =
        (calls ++ [Call.evaluate raw patterns]).countP Call.asks := by
      rw [hstats, List.countP_append, ← h.asked]
      rfl
    have hrecency : recency (calls ++ [.evaluate raw patterns]) =
        (Call.evaluate raw patterns).refresh (recency calls) := by
      rw [recency_append, List.foldl_cons, List.foldl_nil]
    cases hvalue : (Formula.ofRaw raw).evalWith (Call.inputs patterns) with
    | ok x =>
        simp only [hvalue] at heval
        obtain ⟨hfits, hkeys⟩ := h.fits.put (Call.key raw patterns) x
        refine ⟨hstats, ⟨hsound, heval ▸ hfits, ?_, hasked⟩, .inl ⟨x, rfl⟩⟩
        rw [hrecency, heval, hkeys, h.keys_eq, take_touch_take (nodup_recency calls)]
        simp only [Call.refresh, hvalue]
    | error e =>
        simp only [hvalue] at heval
        have hresults : m'.results = m.results := by rw [heval]
        refine ⟨hstats, ⟨hsound, hresults ▸ h.fits, ?_, hasked⟩, .inr hresults⟩
        rw [hrecency, hresults, h.keys_eq]
        simp only [Call.refresh, hvalue]

theorem Follows.perform (call : Call) :
    (m.perform call).2.Follows capacity (calls ++ [call]) := by
  cases call with
  | evaluate raw patterns =>
      by_cases hkey : Call.key raw patterns ∈ m.results.keys
      · exact (h.hit raw patterns hkey).2.1
      · exact (h.miss raw patterns hkey).2.1
  | clear => exact h.clear

end Evaluate

theorem Follows.performAll {m : Memo} (h : m.Follows capacity calls) (later : List Call) :
    (m.performAll later).2.Follows capacity (calls ++ later) := by
  induction later generalizing m calls with
  | nil => rwa [List.append_nil]
  | cons call rest ih =>
      have hrest := ih (h.perform call)
      rwa [List.append_assoc] at hrest

/-- A memory of any capacity holds the results that were used last. A call for a result is
answered from memory if, since the last clear, a call with the same key has been answered with a
result, and fewer than `capacity` other keys have been used since the latest such call. It is a
miss otherwise, and the evaluator runs if its inputs can be substituted. A call that fails leaves
what is remembered as it is, and so do the counts when everything is forgotten. There are never
more results than there is room for, and every call for a result is counted. -/
theorem hit_iff_recentlyUsed (capacity : Nat) (calls : List Call) :
    let m := ((empty capacity).performAll calls).2
    m.results.size ≤ capacity ∧ m.stats.hits + m.stats.misses = calls.countP Call.asks ∧
      (m.perform .clear).2.stats = m.stats ∧
      ∀ (raw : String) (patterns : List UInt64),
        let f := Formula.ofRaw raw
        let inputs := Call.inputs patterns
        let m' := (m.perform (.evaluate raw patterns)).2
        (m.perform (.evaluate raw patterns)).1 = some (f.evalWith inputs) ∧
          (m'.stats = m.stats.hit ↔ RecentlyUsed capacity calls (Call.key raw patterns)) ∧
          (m'.stats = m.stats.miss (f.substitute inputs).isOk ↔
            ¬RecentlyUsed capacity calls (Call.key raw patterns)) ∧
          ((∃ x, f.evalWith inputs = .ok x) ∨ m'.results = m.results) := by
  intro m
  have h : m.Follows capacity calls := (follows_empty capacity).performAll calls
  refine ⟨h.fits.size_le, h.asked, rfl, fun raw patterns => ?_⟩
  rw [← mem_take_recency_iff, ← h.keys_eq]
  have hanswer := (h.sound.perform (.evaluate raw patterns)).1
  by_cases hkey : Call.key raw patterns ∈ m.results.keys
  · obtain ⟨hstats, -, hvalue⟩ := h.hit raw patterns hkey
    refine ⟨hanswer, iff_of_true hstats hkey, iff_of_false ?_ (not_not_intro hkey), .inl hvalue⟩
    exact fun hmiss => MemoStats.hit_ne_miss _ _ (hstats.symm.trans hmiss)
  · obtain ⟨hstats, -, hvalue⟩ := h.miss raw patterns hkey
    refine ⟨hanswer, iff_of_false ?_ hkey, iff_of_true hstats hkey, hvalue⟩
    exact fun hhit => MemoStats.hit_ne_miss _ _ (hhit.symm.trans hstats)

/-- With room for one result the second formula drives out the first one. -/
theorem hit_of_latest_use :
    let m := ((empty 1).performAll [.evaluate "=2" [], .evaluate "=3" []]).2
    (m.perform (.evaluate "=3" [])).2.stats = m.stats.hit ∧
      (m.perform (.evaluate "=2" [])).2.stats ≠ m.stats.hit := by
  intro m
  obtain ⟨-, -, -, hcalls⟩ := hit_iff_recentlyUsed 1 [.evaluate "=2" [], .evaluate "=3" []]
  constructor
  · exact (hcalls "=3" []).2.1.mpr (mem_take_recency_iff.mp (by decide +kernel))
  · intro hhit
    have hused := mem_take_recency_iff.mpr ((hcalls "=2" []).2.1.mp hhit)
    revert hused
    decide +kernel

end Memo

end LiveSheet
