import LiveSheet.Formula
import LiveSheet.Proofs.Coord.Address

/-! # The pieces of a formula

The text of a formula is cut at the front for as long as there is text: what comes off is a longest
run of characters other than capital letters, a longest run of capital letters without digits after
it, or such a run with the longest run of digits after it. -/

namespace LiveSheet

variable {p : Char → Bool} {text before run after : List Char}

/-- A longest run of characters of one kind in the text `before ++ run ++ after`. -/
structure MaximalRun (p : Char → Bool) (before run after : List Char) : Prop where
  ne_nil : run ≠ []
  all : ∀ c ∈ run, p c = true
  starts : ∀ c ∈ before.getLast?, p c = false
  ends : ∀ c ∈ after.head?, p c = false

/-- Two longest runs that start at one place are the same. -/
theorem MaximalRun.unique {before' run' after' : List Char} (h : MaximalRun p before run after)
    (h' : MaximalRun p before' run' after') (heq : run ++ after = run' ++ after') :
    run = run' ∧ after = after' := by
  have htake := congrArg (List.takeWhile p) heq
  rw [takeWhile_append_of_all h.all h.ends, takeWhile_append_of_all h'.all h'.ends] at htake
  subst htake
  exact ⟨rfl, List.append_cancel_left heq⟩

theorem maximalRun_takeWhile {c : Char} (hc : p c = true) (rest : List Char) :
    MaximalRun p [] (c :: rest.takeWhile p) (rest.dropWhile p) where
  ne_nil := List.cons_ne_nil _ _
  all := List.forall_mem_cons.mpr ⟨hc, fun _ => List.mem_takeWhile_imp⟩
  starts := by rintro _ ⟨⟩
  ends := eq_false_of_head?_dropWhile

namespace Segment

/-- The text of some pieces, one after the other. -/
def chars (segments : List Segment) : List Char :=
  segments.flatMap (·.text.toList)

theorem ofCharsOnto_eq (done : List Segment) (text : List Char) :
    ofCharsOnto done text = done.reverse ++ ofCharsOnto [] text := by
  cases text with
  | nil => rw [ofCharsOnto, ofCharsOnto, List.reverse_nil, List.append_nil]
  | cons c rest =>
      rw [ofCharsOnto, ofCharsOnto_eq, ofCharsOnto, ofCharsOnto_eq [_]]
      simp
termination_by text.length
decreasing_by all_goals exact split_length_lt c rest

theorem ofCharsOnto_cons (c : Char) (rest : List Char) :
    ofCharsOnto [] (c :: rest) =
      (split (c :: rest)).1 :: ofCharsOnto [] (split (c :: rest)).2 := by
  rw [ofCharsOnto, ofCharsOnto_eq]
  rfl

/-- Induction over the pieces of a text. -/
theorem split_induct {motive : List Char → Prop} (nil : motive [])
    (cons : ∀ c rest, motive (split (c :: rest)).2 → motive (c :: rest)) :
    ∀ text, motive text
  | [] => nil
  | c :: rest => cons c rest (split_induct nil cons (split (c :: rest)).2)
termination_by text => text.length
decreasing_by exact split_length_lt c rest

/-- The first piece of a text and the characters that it consists of. -/
theorem split_runs (c : Char) (rest : List Char) :
    (∃ run after, split (c :: rest) = (literal (String.ofList (c :: run)), after) ∧
        MaximalRun (!·.isUpper) [] (c :: run) after) ∨
      (∃ letters after, split (c :: rest) = (literal (String.ofList (c :: letters)), after) ∧
        MaximalRun Char.isUpper [] (c :: letters) after ∧
        ∀ d ∈ after.head?, d.isDigit = false) ∨
      ∃ letters digits after,
        split (c :: rest) = (ofToken (String.ofList (c :: letters ++ digits)), after) ∧
        MaximalRun Char.isUpper [] (c :: letters) (digits ++ after) ∧
        MaximalRun Char.isDigit (c :: letters) digits after := by
  by_cases hc : c.isUpper = true
  · have hletters := maximalRun_takeWhile hc rest
    refine .inr ?_
    unfold split
    simp only [List.takeWhile_cons, List.dropWhile_cons, hc, if_true, List.isEmpty_cons,
      Bool.false_eq_true, if_false]
    generalize rest.takeWhile Char.isUpper = letters at hletters ⊢
    generalize rest.dropWhile Char.isUpper = tail at hletters ⊢
    cases tail with
    | nil => exact .inl ⟨letters, [], rfl, hletters, by rintro _ ⟨⟩⟩
    | cons d tail =>
        by_cases hd : d.isDigit = true
        · have hdigits := maximalRun_takeWhile hd tail
          refine .inr ⟨letters, _, _, by simp [hd], ?_, { hdigits with starts := ?_ }⟩
          · rw [List.cons_append, List.takeWhile_append_dropWhile]
            exact hletters
          · -- No letter before the digits is a digit itself.
            intro e he
            have hupper := hletters.all e (List.mem_of_mem_getLast? he)
            rw [Bool.eq_false_iff]
            intro hdigit
            rw [Coord.isUpper_of_isDigit hdigit] at hupper
            cases hupper
        · exact .inl ⟨letters, d :: tail, by simp [hd], hletters,
            by rintro _ ⟨⟩; exact Bool.eq_false_iff.mpr hd⟩
  · have hother : (!c.isUpper) = true := by simp [hc]
    refine .inl ⟨_, _, ?_, maximalRun_takeWhile (p := (!·.isUpper)) hother rest⟩
    simp [split, hc]

/-- A reference among the pieces names the cell that its token denotes. -/
theorem target_eq_of_split {c : Char} {rest tail : List Char} {token : String}
    {target : Except CellError Coord} (h : split (c :: rest) = (.reference token target, tail)) :
    target = Coord.ofToken token := by
  rcases split_runs c rest with ⟨_, _, hsplit, -⟩ | ⟨_, _, hsplit, -⟩ | ⟨_, _, _, hsplit, -⟩
  · cases hsplit.symm.trans h
  · cases hsplit.symm.trans h
  · cases hsplit.symm.trans h
    rfl

theorem chars_ofCharsOnto (text : List Char) : chars (ofCharsOnto [] text) = text := by
  induction text using split_induct with
  | nil => rw [ofCharsOnto]; rfl
  | cons c rest ih =>
      rw [ofCharsOnto_cons, chars, List.flatMap_cons, ← chars, ih, text_append_split]

theorem text_ne_empty_of_mem {s : Segment} (h : s ∈ ofCharsOnto [] text) : s.text ≠ "" := by
  induction text using split_induct with
  | nil => rw [ofCharsOnto] at h; cases h
  | cons c rest ih =>
      rw [ofCharsOnto_cons] at h
      rcases List.mem_cons.mp h with rfl | h
      · exact fun hempty => text_split_ne_nil c rest (by rw [hempty]; rfl)
      · exact ih h

end Segment

end LiveSheet
