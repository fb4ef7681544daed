import LiveSheet.Proofs.Coord.Column

/-! # Labels in words of 64 bits

The arithmetic of labels, done in words of 64 bits and refused as soon as a result does not fit
in one. It is never refused, however long a label is, and gives what exact arithmetic gives. -/

namespace LiveSheet.Column

/-- A result that does not fit in a word of 64 bits. -/
structure Overflow

namespace Word

variable {a b n value : UInt64} {letters tail : List Char}

def add (a b : UInt64) : Except Overflow UInt64 :=
  if a.toNat + b.toNat < UInt64.size then .ok (a + b) else .error {}

def mul (a b : UInt64) : Except Overflow UInt64 :=
  if a.toNat * b.toNat < UInt64.size then .ok (a * b) else .error {}

def sub (a b : UInt64) : Except Overflow UInt64 :=
  if b ≤ a then .ok (a - b) else .error {}

/-- The letters of the label with the given number, put in front of `tail`. -/
def lettersOnto (n : UInt64) (tail : List Char) : Except Overflow (List Char) :=
  if n = 0 then .ok tail
  else match h : sub n 1 with
    | .error e => .error e
    | .ok m => lettersOnto (m / 26) (letter (m % 26).toNat :: tail)
termination_by n.toNat
decreasing_by
  unfold sub at h
  split at h
  · next hle =>
    cases h
    rw [UInt64.toNat_div, UInt64.toNat_sub_of_le _ _ hle]
    rw [UInt64.le_iff_toNat_le] at hle
    simp only [UInt64.reduceToNat] at *
    omega
  · cases h

def label (i : UInt32) : Except Overflow String := do
  let n ← add i.toUInt64 1
  let letters ← lettersOnto n []
  return String.ofList letters

/-- Reads letters on top of the number of the letters before them. -/
def ofLettersFrom? (value : UInt64) : List Char → Except Overflow (Option Nat)
  | [] =>
      if value = 0 then .ok none
      else do
        let i ← sub value 1
        return some i.toNat
  | c :: cs =>
      if c.isUpper then do
        let product ← mul value 26
        let next ← add product (letterValue c).toUInt64
        if next > 0x100000000 then return none else ofLettersFrom? next cs
      else .ok none

def ofLabel? (label : String) : Except Overflow (Option Nat) :=
  ofLettersFrom? 0 label.toList

theorem ok_bind {α β : Type} (x : α) (f : α → Except Overflow β) : (.ok x >>= f) = f x := rfl

theorem add_eq (h : a.toNat + b.toNat < UInt64.size) : add a b = .ok (a + b) :=
  if_pos h

theorem mul_eq (h : a.toNat * b.toNat < UInt64.size) : mul a b = .ok (a * b) :=
  if_pos h

theorem sub_one_eq (h : n ≠ 0) : sub n 1 = .ok (n - 1) ∧ (n - 1).toNat = n.toNat - 1 := by
  have hle : 1 ≤ n := by
    rw [UInt64.le_iff_toNat_le]
    exact Nat.pos_of_ne_zero fun hzero => h (UInt64.toNat_inj.mp hzero)
  exact ⟨if_pos hle, UInt64.toNat_sub_of_le _ _ hle⟩

/-! ## Writing -/

theorem lettersOnto_eq (h : n ≠ 0) :
    lettersOnto n tail = .ok (Column.lettersOnto (n.toNat - 1) tail) := by
  fun_induction lettersOnto n tail with
  | case1 => exact (h rfl).elim
  | case2 n tail _ e he =>
      obtain ⟨hsub, -⟩ := sub_one_eq h
      cases he.symm.trans hsub
  | case3 n tail _ m hok ih =>
      obtain ⟨hsub, hm⟩ := sub_one_eq h
      cases hok.symm.trans hsub
      have hdiv : ((n - 1) / 26).toNat = (n.toNat - 1) / 26 := by
        rw [UInt64.toNat_div, hm]
        rfl
      have hmod : ((n - 1) % 26).toNat = (n.toNat - 1) % 26 := by
        rw [UInt64.toNat_mod, hm]
        rfl
      rw [Column.lettersOnto, hmod]
      split
      · next hlast =>
        -- Nothing is left for another letter.
        have hzero : (n - 1) / 26 = 0 :=
          UInt64.toNat_inj.mp (hdiv.trans (Nat.div_eq_of_lt hlast))
        rw [hzero, lettersOnto, if_pos rfl, Nat.mod_eq_of_lt hlast]
      · next hmore =>
        have hne : (n - 1) / 26 ≠ 0 := by
          intro hzero
          rw [hzero] at hdiv
          exact absurd hdiv.symm (by simp; omega)
        rw [← hmod, ih hne, hdiv, hmod]

theorem label_eq (i : UInt32) : label i = .ok (Column.label i.toNat) := by
  have hlt := i.toNat_lt
  have hfits : i.toUInt64.toNat + (1 : UInt64).toNat < UInt64.size := by
    simp only [UInt32.toNat_toUInt64, UInt64.reduceToNat, UInt64.size]
    omega
  have hnumber : (i.toUInt64 + 1).toNat = i.toNat + 1 := by
    rw [UInt64.toNat_add, Nat.mod_eq_of_lt hfits, UInt32.toNat_toUInt64]
    rfl
  have hne : i.toUInt64 + 1 ≠ 0 := by
    intro hzero
    rw [hzero] at hnumber
    cases hnumber
  rw [label, add_eq hfits, ok_bind, lettersOnto_eq hne, hnumber]
  rfl

/-! ## Reading -/

theorem ofLettersFrom?_eq (hvalue : value.toNat ≤ Coord.maxIndex + 1) :
    ofLettersFrom? value letters = .ok (Column.ofLettersFrom? value.toNat letters) := by
  induction letters generalizing value with
  | nil =>
      rw [ofLettersFrom?, Column.ofLettersFrom?]
      by_cases hzero : value = 0
      · rw [if_pos hzero, if_pos (by rw [hzero]; rfl)]
      · obtain ⟨hsub, hi⟩ := sub_one_eq hzero
        have hne : value.toNat ≠ 0 := fun h => hzero (UInt64.toNat_inj.mp h)
        rw [if_neg hzero, if_neg hne, hsub, ← hi]
        rfl
  | cons c cs ih =>
      rw [ofLettersFrom?, Column.ofLettersFrom?]
      split
      · next hc =>
        have hle := letterValue_le hc
        have hletter : (letterValue c).toUInt64.toNat = letterValue c :=
          Nat.mod_eq_of_lt (by omega)
        have hproduct : value.toNat * (26 : UInt64).toNat < UInt64.size := by
          simp only [Coord.maxIndex, UInt64.reduceToNat, UInt64.size] at *
          omega
        have hvalue26 : (value * 26).toNat = value.toNat * 26 := by
          rw [UInt64.toNat_mul, Nat.mod_eq_of_lt hproduct]
          rfl
        have hsum : (value * 26).toNat + (letterValue c).toUInt64.toNat < UInt64.size := by
          rw [hvalue26, hletter]
          simp only [Coord.maxIndex, UInt64.size] at *
          omega
        have hnext : (value * 26 + (letterValue c).toUInt64).toNat =
            value.toNat * 26 + letterValue c := by
          rw [UInt64.toNat_add, Nat.mod_eq_of_lt hsum, hvalue26, hletter]
        have hbound : value * 26 + (letterValue c).toUInt64 > 0x100000000 ↔
            value.toNat * 26 + letterValue c > Coord.maxIndex + 1 := by
          rw [gt_iff_lt, UInt64.lt_iff_toNat_lt, hnext]
          rfl
        rw [mul_eq hproduct, ok_bind, add_eq hsum, ok_bind]
        simp only [hbound]
        split
        · rfl
        · next hfits => rw [ih (by omega), hnext]
      · rfl

theorem ofLabel?_eq (s : String) : ofLabel? s = .ok (Column.ofLabel? s) :=
  ofLettersFrom?_eq (Nat.zero_le _)

end Word

/-- Labels and columns of the coordinate space determine each other: the label of a column is
read as that column, and what is read as a column is its label. Only what has no letters, has
other bytes than capital letters, or has a number beyond the space is not read at all. No
arithmetic in words of 64 bits is too large for them. -/
theorem label_codec :
    (∀ i ≤ Coord.maxIndex, ofLabel? (label i) = some i) ∧
    (∀ s i, ofLabel? s = some i → label i = s) ∧
    (∀ s, ofLabel? s = none ↔ s = "" ∨
      (∃ b ∈ s.toByteArray.data.toList, isCapital b = false) ∨
        Coord.maxIndex + 1 < number s.toList) ∧
    (∀ i : UInt32, Word.label i = .ok (label i.toNat)) ∧
    ∀ s, Word.ofLabel? s = .ok (ofLabel? s) := by
  refine ⟨fun i hi => ?_, fun s i hs => ?_, fun s => ?_, Word.label_eq, Word.ofLabel?_eq⟩
  · obtain ⟨⟨-, hupper⟩, hnumber⟩ := label_letters i
    rw [ofLabel?, ofLetters?_eq_some_iff]
    exact ⟨hupper, hnumber, hi⟩
  · obtain ⟨hupper, hnumber, -⟩ := ofLetters?_eq_some_iff.mp hs
    rw [label, lettersOnto_of_number hupper hnumber, List.append_nil, String.ofList_toList]
  · have hempty : s.toList = [] ↔ s = "" := String.toList_eq_nil_iff
    have hbytes := not_congr (forall_isUpper_iff s)
    simp only [not_forall, Bool.not_eq_true, exists_prop] at hbytes
    rw [ofLabel?, ofLetters?_eq_none_iff, hempty, hbytes]

end LiveSheet.Column
