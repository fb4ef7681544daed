import LiveSheet.Proofs.Coord.Column
import LiveSheet.Proofs.Decimal.Plain

/-! # Reference tokens and addresses

A reference token denotes a cell if its letters are the label of the column and its digits a
numeral of the row number. Row numbers are read in the width of the row indices, but they count
from one: the last row of the coordinate space has an address, which denotes no cell. -/

namespace LiveSheet.Coord

variable {c : Coord} {letters digits rest token : List Char} {present : Bool}

/-! ## Tokens -/

/-- An absolute mark, or nothing. -/
def mark (present : Bool) : List Char :=
  if present then ['$'] else []

/-- Letters and digits with absolute marks before them or without. -/
def withMarks (columnMark rowMark : Bool) (letters digits : List Char) : List Char :=
  mark columnMark ++ (letters ++ (mark rowMark ++ digits))

theorem exists_mark (text : List Char) : ∃ present, text = mark present ++ dropMark text := by
  unfold dropMark
  split
  · exact ⟨true, rfl⟩
  · exact ⟨false, rfl⟩

theorem dropMark_append (h : ∀ d ∈ rest.head?, d ≠ '$') :
    dropMark (mark present ++ rest) = rest := by
  cases present with
  | true => rfl
  | false =>
      change dropMark rest = rest
      unfold dropMark
      split
      · exact (h '$' rfl rfl).elim
      · rfl

theorem isUpper_of_isDigit {d : Char} (h : d.isDigit = true) : d.isUpper = false := by
  rw [Numeral.isDigit_iff] at h
  rw [Bool.eq_false_iff, ne_eq, Column.isUpper_iff]
  omega

/-- Marks are no letters and no digits, so a token has its parts in one way only. -/
theorem tokenParts?_eq_some_iff : tokenParts? token = some (letters, digits) ↔
    (letters ≠ [] ∧ ∀ d ∈ letters, d.isUpper = true) ∧
    (digits ≠ [] ∧ ∀ d ∈ digits, d.isDigit = true) ∧
    ∃ columnMark rowMark, token = withMarks columnMark rowMark letters digits := by
  constructor
  · intro h
    obtain ⟨columnMark, hcolumn⟩ := exists_mark token
    obtain ⟨rowMark, hrow⟩ := exists_mark ((dropMark token).dropWhile Char.isUpper)
    simp only [tokenParts?, Option.ite_none_left_eq_some, Bool.or_eq_true, Bool.not_eq_true',
      List.isEmpty_iff, not_or, Bool.not_eq_false, Option.some.injEq, Prod.mk.injEq,
      List.dropWhile_eq_nil_iff] at h
    obtain ⟨⟨⟨hletters, hdigits⟩, hend⟩, rfl, rfl⟩ := h
    refine ⟨⟨hletters, fun d => List.mem_takeWhile_imp⟩, ⟨hdigits, fun d => List.mem_takeWhile_imp⟩,
      columnMark, rowMark, ?_⟩
    rw [withMarks, List.takeWhile_eq_self_iff.mpr hend, ← hrow, List.takeWhile_append_dropWhile,
      ← hcolumn]
  · rintro ⟨⟨hletters, hupper⟩, ⟨hdigits, hdigit⟩, columnMark, rowMark, rfl⟩
    have hfirst : ∀ d ∈ digits.head?, d.isDigit = true := fun d hd =>
      hdigit d (List.mem_of_mem_head? hd)
    have hstart : ∀ d ∈ (letters ++ (mark rowMark ++ digits)).head?, d ≠ '$' := by
      intro d hd
      rw [List.head?_append_of_ne_nil _ hletters] at hd
      rintro rfl
      cases hupper '$' (List.mem_of_mem_head? hd)
    have hafter : ∀ d ∈ (mark rowMark ++ digits).head?, d.isUpper = false := by
      cases rowMark with
      | true => rintro _ ⟨⟩; rfl
      | false => exact fun d hd => isUpper_of_isDigit (hfirst d hd)
    have hnumber : ∀ d ∈ digits.head?, d ≠ '$' := by
      rintro d hd rfl
      cases hfirst '$' hd
    simp only [tokenParts?, withMarks, dropMark_append hstart,
      takeWhile_append_of_all hupper hafter, dropWhile_append_of_all hupper hafter,
      dropMark_append hnumber, List.takeWhile_eq_self_iff.mpr hdigit,
      List.dropWhile_eq_nil_iff.mpr hdigit, List.isEmpty_nil, Bool.not_true, Bool.or_false]
    simp [hletters, hdigits]

/-! ## Cells -/

theorem ofParts?_eq_some_iff (hdigits : digits ≠ []) :
    ofParts? letters digits = some c ↔
      Column.ofLetters? letters = some c.col ∧ Numeral.value digits = c.row + 1 ∧
        c.row < maxIndex := by
  rw [ofParts?, if_neg (by simpa using hdigits), Option.bind_eq_some_iff]
  simp only [ofRowNumber?, Option.ite_none_left_eq_some, Option.some.injEq, not_or, not_lt]
  constructor
  · rintro ⟨col, hcol, ⟨hzero, hle⟩, rfl⟩
    exact ⟨hcol, by simp only; omega, by simp only; omega⟩
  · rintro ⟨hcol, hrow, hlt⟩
    exact ⟨c.col, hcol, by omega, by rw [hrow, Nat.add_sub_cancel]⟩

theorem ofToken_eq_ok_iff_parts {token : String} : ofToken token = .ok c ↔
    ∃ letters digits, tokenParts? token.toList = some (letters, digits) ∧
      ofParts? letters digits = some c := by
  rw [ofToken]
  cases tokenParts? token.toList with
  | none => simp
  | some parts =>
      obtain ⟨letters, digits⟩ := parts
      cases hcell : ofParts? letters digits <;> simp [hcell]

/-- A token denotes a cell if it is the label of the column and a numeral of the row number,
with marks or without. The row may be any but the last one of the coordinate space. -/
theorem ofToken_eq_ok_iff {token : String} : ofToken token = .ok c ↔
    c.row < maxIndex ∧ c.col ≤ maxIndex ∧ ∃ digits columnMark rowMark,
      (digits ≠ [] ∧ ∀ d ∈ digits, d.isDigit = true) ∧ Numeral.value digits = c.row + 1 ∧
      token.toList = withMarks columnMark rowMark (Column.label c.col).toList digits := by
  rw [ofToken_eq_ok_iff_parts]
  constructor
  · rintro ⟨letters, digits, htoken, hc⟩
    obtain ⟨-, hdigits, columnMark, rowMark, htext⟩ := tokenParts?_eq_some_iff.mp htoken
    obtain ⟨hletters, hvalue, hrow⟩ := (ofParts?_eq_some_iff hdigits.1).mp hc
    obtain ⟨hupper, hnumber, hcol⟩ := Column.ofLetters?_eq_some_iff.mp hletters
    refine ⟨hrow, hcol, digits, columnMark, rowMark, hdigits, hvalue, ?_⟩
    rw [htext, Column.label, Column.lettersOnto_of_number hupper hnumber, List.append_nil,
      String.toList_ofList]
  · rintro ⟨hrow, hcol, digits, columnMark, rowMark, hdigits, hvalue, htext⟩
    obtain ⟨hletters, hnumber⟩ := Column.label_letters c.col
    refine ⟨_, digits, tokenParts?_eq_some_iff.mpr ⟨hletters, hdigits, _, _, htext⟩, ?_⟩
    rw [ofParts?_eq_some_iff hdigits.1, Column.ofLetters?_eq_some_iff]
    exact ⟨⟨hletters.2, hnumber, hcol⟩, hvalue, hrow⟩

/-! ## The grammar of reference tokens

A reference token is a run of capital letters and a run of digits, with an absolute mark before
either or not. It names a cell if the letters are a label and the digits a numeral of numbers in
the coordinate space: the label has the number of the column and the numeral that of the row,
both counted from one. Every other token names no cell, for whatever reason it is not one. -/

/-- By the grammar, the token names the cell. The number of the last row of the coordinate space is
one too large to be a row number, while that of the last column is a column number. -/
inductive Names : List Char → Coord → Prop
  | parts (columnMark rowMark : Bool) {letters digits : List Char} {c : Coord}
      (hletters : letters ≠ [] ∧ ∀ d ∈ letters, d.isUpper = true)
      (hcolumn : Column.number letters = c.col + 1) (hcol : c.col ≤ maxIndex)
      (hdigits : digits ≠ [] ∧ ∀ d ∈ digits, d.isDigit = true)
      (hrow : Nat.ofDigitChars 10 digits 0 = c.row + 1) (hmax : c.row + 1 ≤ maxIndex) :
      Names (withMarks columnMark rowMark letters digits) c

theorem ofToken_eq_ok_iff_names {token : String} :
    ofToken token = .ok c ↔ Names token.toList c := by
  rw [ofToken_eq_ok_iff_parts]
  constructor
  · rintro ⟨letters, digits, htoken, hcell⟩
    obtain ⟨hletters, hdigits, columnMark, rowMark, htext⟩ := tokenParts?_eq_some_iff.mp htoken
    obtain ⟨hcolumn, hvalue, hrow⟩ := (ofParts?_eq_some_iff hdigits.1).mp hcell
    obtain ⟨-, hnumber, hcol⟩ := Column.ofLetters?_eq_some_iff.mp hcolumn
    rw [Numeral.value_eq] at hvalue
    rw [htext]
    exact .parts columnMark rowMark hletters hnumber hcol hdigits hvalue hrow
  · generalize htext : token.toList = text
    rintro ⟨columnMark, rowMark, hletters, hnumber, hcol, hdigits, hvalue, hrow⟩
    refine ⟨_, _, tokenParts?_eq_some_iff.mpr ⟨hletters, hdigits, columnMark, rowMark, rfl⟩, ?_⟩
    rw [ofParts?_eq_some_iff hdigits.1, Column.ofLetters?_eq_some_iff, Numeral.value_eq]
    exact ⟨⟨hletters.2, hnumber, hcol⟩, hvalue, hrow⟩

/-- A token is refused in one way only. -/
theorem eq_invalidReference_of_ofToken {token : String} {e : CellError}
    (h : ofToken token = .error e) : e = .invalidReference := by
  unfold ofToken at h
  split at h <;> cases h
  rfl

/-- A token denotes the cell that it names by the grammar; if it names none, it is an invalid
reference. -/
theorem ofToken_iff_names (token : String) :
    (∀ c, ofToken token = .ok c ↔ Names token.toList c) ∧
      ((¬∃ c, Names token.toList c) ↔ ofToken token = .error .invalidReference) := by
  refine ⟨fun c => ofToken_eq_ok_iff_names, ?_⟩
  simp only [← ofToken_eq_ok_iff_names]
  cases htoken : ofToken token with
  | ok c => simp
  | error e => simp [eq_invalidReference_of_ofToken htoken]

/-- Marks and leading zeros make no difference. -/
example : ofToken "$B$007" = .ok ⟨6, 1⟩ := by decide +kernel

/-! ## Addresses -/

/-- The address of a cell with absolute marks before its parts or without. -/
def marked (columnMark rowMark : Bool) (c : Coord) : String :=
  String.ofList (withMarks columnMark rowMark (Column.label c.col).toList
    (Numeral.digits (c.row + 1)))

theorem marked_none (c : Coord) : c.marked false false = c.address := by
  simp [marked, withMarks, mark, address, Numeral.write]

theorem digits_row (c : Coord) : Numeral.digits (c.row + 1) ≠ [] ∧
    ∀ d ∈ Numeral.digits (c.row + 1), d.isDigit = true :=
  ⟨Nat.toDigits_ne_nil, fun _ => Numeral.isDigit_digits⟩

/-- An address denotes its cell, or no cell at all. -/
theorem ofToken_marked (hcol : c.col ≤ maxIndex) (columnMark rowMark : Bool) :
    ofToken (c.marked columnMark rowMark) =
      if c.row < maxIndex then .ok c else .error .invalidReference := by
  split
  · next hrow =>
    exact ofToken_eq_ok_iff.mpr ⟨hrow, hcol, _, columnMark, rowMark, digits_row c,
      Numeral.value_digits _, String.toList_ofList⟩
  · next hrow =>
    have hparts : tokenParts? (c.marked columnMark rowMark).toList =
        some ((Column.label c.col).toList, Numeral.digits (c.row + 1)) :=
      tokenParts?_eq_some_iff.mpr ⟨(Column.label_letters c.col).1, digits_row c, columnMark,
        rowMark, String.toList_ofList⟩
    have hnone : ofParts? (Column.label c.col).toList (Numeral.digits (c.row + 1)) = none := by
      refine Option.eq_none_iff_forall_ne_some.mpr fun d hd => ?_
      obtain ⟨-, hvalue, hlt⟩ := (ofParts?_eq_some_iff (digits_row c).1).mp hd
      rw [Numeral.value_digits] at hvalue
      omega
    simp only [ofToken, hparts, Option.bind_some, hnone]

/-- An address denotes its cell, and marks have no effect on what it denotes. The cells of the
last row have addresses that denote nothing. -/
theorem ofToken_address (hrow : c.row ≤ maxIndex) (hcol : c.col ≤ maxIndex) :
    (ofToken c.address = if c.row = maxIndex then .error .invalidReference else .ok c) ∧
      ∀ columnMark rowMark, ofToken (c.marked columnMark rowMark) = ofToken c.address := by
  have hlast : c.row < maxIndex ↔ ¬c.row = maxIndex := by omega
  have haddress := ofToken_marked hcol false false
  rw [marked_none] at haddress
  refine ⟨?_, fun columnMark rowMark => (ofToken_marked hcol _ _).trans haddress.symm⟩
  rw [haddress]
  simp only [hlast, ite_not]

/-- The last column of the last row but one. -/
theorem ofToken_address_corner :
    (ofToken (address ⟨0xfffffffe, 0xffffffff⟩) = .ok ⟨0xfffffffe, 0xffffffff⟩) ∧
      ∀ columnMark rowMark, ofToken (marked columnMark rowMark ⟨0xfffffffe, 0xffffffff⟩) =
        ofToken (address ⟨0xfffffffe, 0xffffffff⟩) :=
  ofToken_address (by decide) (by decide)

/-- The row number of the last row is one too large to be read. -/
theorem not_forall_ofToken_address : ¬∀ c : Coord, c.row ≤ maxIndex → c.col ≤ maxIndex →
    ofToken c.address = .ok c ∧
      ∀ columnMark rowMark, ofToken (c.marked columnMark rowMark) = .ok c := by
  intro h
  obtain ⟨-, hmarked⟩ := h ⟨maxIndex, 0⟩ (Nat.le_refl _) (Nat.zero_le _)
  have hnone := ofToken_marked (c := ⟨maxIndex, 0⟩) (Nat.zero_le _) false false
  rw [if_neg (Nat.lt_irrefl _), hmarked] at hnone
  cases hnone

end LiveSheet.Coord
