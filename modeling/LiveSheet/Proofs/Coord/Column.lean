import LiveSheet.Coord
import Mathlib.Data.List.Induction
import Mathlib.Data.Nat.Digits.Defs

/-! # Labels and their columns

A label is a numeral in bijective base 26, and the columns are numbered from one in its order.
Every column of the coordinate space has one label, and every label has one column unless its
number is beyond the space. Words of 64 bits are wide enough to compute either from the other. -/

namespace LiveSheet.Column

variable {c : Char} {i value : Nat} {letters tail : List Char}

/-! ## Letters -/

theorem isUpper_iff : c.isUpper = true ↔ 65 ≤ c.toNat ∧ c.toNat ≤ 90 := by
  change decide (c.val ≥ 65 ∧ c.val ≤ 90) = true ↔ _
  simp [UInt32.le_iff_toNat_le]

theorem letter_spec : ∀ i < 26,
    (letter i).isUpper = true ∧ letterValue (letter i) = i + 1 := by
  decide

theorem letter_letterValue (h : c.isUpper = true) : letter (letterValue c - 1) = c := by
  rw [isUpper_iff] at h
  have hvalue : 'A'.toNat + (letterValue c - 1) = c.toNat := by
    simp [letterValue]
    omega
  rw [letter, hvalue, Char.ofNat_toNat]

theorem letterValue_pos (c : Char) : 0 < letterValue c :=
  Nat.succ_pos _

theorem letterValue_le (h : c.isUpper = true) : letterValue c ≤ 26 := by
  rw [isUpper_iff] at h
  simp [letterValue]
  omega

/-! ## Numbers -/

/-- The number of a label in bijective base 26. The first column has number one. -/
def number (letters : List Char) : Nat :=
  Nat.ofDigits 26 (letters.reverse.map letterValue)

/-- The number of a label that begins with letters of the given number. -/
def numberFrom (value : Nat) (letters : List Char) : Nat :=
  letters.foldl (fun n c => n * 26 + letterValue c) value

theorem number_eq (letters : List Char) : number letters = numberFrom 0 letters := by
  rw [number, Nat.ofDigits_eq_foldr, List.foldr_map, List.foldr_reverse, numberFrom]
  simp [Nat.mul_comm, Nat.add_comm]

theorem le_numberFrom (value : Nat) (letters : List Char) : value ≤ numberFrom value letters := by
  induction letters generalizing value with
  | nil => exact Nat.le_refl _
  | cons c cs ih => exact Nat.le_trans (by omega) (ih (value * 26 + letterValue c))

theorem number_pos (h : letters ≠ []) : 0 < number letters := by
  rw [number_eq]
  cases letters with
  | nil => exact (h rfl).elim
  | cons c cs =>
      exact Nat.lt_of_lt_of_le (Nat.add_pos_right _ (letterValue_pos c)) (le_numberFrom _ cs)

theorem number_append (letters : List Char) (c : Char) :
    number (letters ++ [c]) = number letters * 26 + letterValue c := by
  rw [number_eq, number_eq, numberFrom, List.foldl_append]
  rfl

/-! ## Reading a label -/

/-- A label is read as the column of its number. -/
theorem ofLettersFrom?_eq_some_iff (hvalue : value ≤ Coord.maxIndex + 1) :
    ofLettersFrom? value letters = some i ↔
      (∀ c ∈ letters, c.isUpper = true) ∧ numberFrom value letters = i + 1 ∧
        i ≤ Coord.maxIndex := by
  induction letters generalizing value with
  | nil =>
      simp only [ofLettersFrom?, numberFrom, List.foldl_nil, List.not_mem_nil, false_implies,
        implies_true, true_and, Option.ite_none_left_eq_some, Option.some.injEq]
      omega
  | cons c cs ih =>
      have hnumber : numberFrom value (c :: cs) = numberFrom (value * 26 + letterValue c) cs := rfl
      rw [ofLettersFrom?, List.forall_mem_cons, hnumber]
      split
      · next hc =>
        simp only
        split
        · next hover =>
          -- The number only grows with what is still to be read.
          have hle := le_numberFrom (value * 26 + letterValue c) cs
          refine iff_of_false (by simp) ?_
          rintro ⟨-, hi, himax⟩
          omega
        · next hfits => rw [ih (Nat.le_of_not_lt hfits), and_iff_right hc]
      · next hc => exact iff_of_false (by simp) fun h => hc h.1.1

theorem ofLetters?_eq_some_iff : ofLetters? letters = some i ↔
    (∀ c ∈ letters, c.isUpper = true) ∧ number letters = i + 1 ∧ i ≤ Coord.maxIndex := by
  rw [ofLetters?, ofLettersFrom?_eq_some_iff (Nat.zero_le _), number_eq]

theorem ofLetters?_eq_none_iff : ofLetters? letters = none ↔
    letters = [] ∨ (∃ c ∈ letters, c.isUpper = false) ∨ Coord.maxIndex + 1 < number letters := by
  rw [Option.eq_none_iff_forall_ne_some]
  constructor
  · intro h
    by_contra hnot
    simp only [not_or, not_exists, not_and, Bool.not_eq_false, Nat.not_lt] at hnot
    obtain ⟨hne, hupper, hle⟩ := hnot
    have hpos := number_pos hne
    exact h (number letters - 1) (ofLetters?_eq_some_iff.mpr ⟨hupper, by omega, by omega⟩)
  · intro h i hi
    obtain ⟨hupper, hnumber, hle⟩ := ofLetters?_eq_some_iff.mp hi
    rcases h with rfl | ⟨c, hc, hnot⟩ | hover
    · cases hnumber
    · rw [hupper c hc] at hnot
      cases hnot
    · omega

/-! ## Writing a label -/

theorem lettersOnto_spec (i : Nat) (htail : ∀ c ∈ tail, c.isUpper = true) :
    (∀ c ∈ lettersOnto i tail, c.isUpper = true) ∧
      numberFrom 0 (lettersOnto i tail) = numberFrom (i + 1) tail := by
  fun_induction lettersOnto i tail with
  | case1 i tail hi =>
      obtain ⟨hupper, hvalue⟩ := letter_spec i hi
      refine ⟨List.forall_mem_cons.mpr ⟨hupper, htail⟩, ?_⟩
      simp [numberFrom, hvalue]
  | case2 i tail hi ih =>
      obtain ⟨hupper, hvalue⟩ := letter_spec (i % 26) (Nat.mod_lt _ (by decide))
      obtain ⟨hall, hnumber⟩ := ih (List.forall_mem_cons.mpr ⟨hupper, htail⟩)
      refine ⟨hall, hnumber.trans ?_⟩
      have hdigits : (i / 26 - 1 + 1) * 26 + (i % 26 + 1) = i + 1 := by omega
      rw [numberFrom, List.foldl_cons, hvalue, hdigits, numberFrom]

/-- A label consists of letters, at least one of them, and has the number of its column. -/
theorem label_letters (i : Nat) :
    ((label i).toList ≠ [] ∧ ∀ c ∈ (label i).toList, c.isUpper = true) ∧
      number (label i).toList = i + 1 := by
  have hnil : ∀ c ∈ ([] : List Char), c.isUpper = true := fun c hc => by cases hc
  obtain ⟨hupper, hnumber⟩ := lettersOnto_spec i hnil
  rw [← number_eq] at hnumber
  rw [label, String.toList_ofList]
  refine ⟨⟨?_, hupper⟩, hnumber⟩
  intro hempty
  rw [hempty] at hnumber
  cases hnumber

/-- Letters are what is written for their number. -/
theorem lettersOnto_of_number (hupper : ∀ c ∈ letters, c.isUpper = true)
    (hnumber : number letters = i + 1) (tail : List Char) :
    lettersOnto i tail = letters ++ tail := by
  induction letters using List.reverseRecOn generalizing i tail with
  | nil => cases hnumber
  | append_singleton letters c ih =>
      rw [List.forall_mem_append, List.forall_mem_singleton] at hupper
      obtain ⟨hletters, hc⟩ := hupper
      have hpos := letterValue_pos c
      have hle := letterValue_le hc
      rw [number_append] at hnumber
      rw [List.append_assoc, List.singleton_append, lettersOnto]
      split
      · next hi =>
        have hnil : letters = [] := by
          by_contra hne
          have := number_pos hne
          omega
        subst hnil
        have hvalue : letterValue c - 1 = i := by
          have : number [] = 0 := rfl
          omega
        rw [← hvalue, letter_letterValue hc, List.nil_append]
      · next hi =>
        have hlast : letterValue c - 1 = i % 26 := by omega
        have hrest : number letters = i / 26 - 1 + 1 := by omega
        rw [← hlast, letter_letterValue hc]
        exact ih hletters hrest _

/-! ## Bytes -/

/-- Whether a byte of a text is a capital letter. -/
def isCapital (b : UInt8) : Bool :=
  65 ≤ b && b ≤ 90

theorem isCapital_ofNat {n : Nat} (h : n < 256) :
    isCapital (UInt8.ofNat n) = true ↔ 65 ≤ n ∧ n ≤ 90 := by
  simp [isCapital, UInt8.le_iff_toNat_le, Nat.mod_eq_of_lt h]

/-- The bytes of a character that is no capital letter are none either. -/
theorem isUpper_iff_bytes (c : Char) :
    c.isUpper = true ↔ ∀ b ∈ String.utf8EncodeChar c, isCapital b = true := by
  rw [isUpper_iff]
  unfold String.utf8EncodeChar
  simp only [Char.toNat_val]
  split
  · next h => rw [List.forall_mem_singleton, isCapital_ofNat (by omega)]
  · -- Beyond ASCII the first byte is enough to tell.
    refine iff_of_false (by omega) fun hall => ?_
    split at hall
    · have hfirst := (isCapital_ofNat (by omega)).mp (hall _ List.mem_cons_self)
      omega
    · split at hall
      all_goals
        have hfirst := (isCapital_ofNat (by omega)).mp (hall _ List.mem_cons_self)
        omega

theorem forall_isUpper_iff (s : String) : (∀ c ∈ s.toList, c.isUpper = true) ↔
    ∀ b ∈ s.toByteArray.data.toList, isCapital b = true := by
  have hbytes : s.toByteArray.data.toList = s.toList.flatMap String.utf8EncodeChar := by
    rw [← String.utf8Encode_toList, List.utf8Encode, List.data_toByteArray]
  rw [hbytes, List.forall_mem_flatMap]
  exact forall₂_congr fun c _ => isUpper_iff_bytes c

end LiveSheet.Column
