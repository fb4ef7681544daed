import LiveSheet.Proofs.Expr.Lexing

/-! # The lexemes of a text

A text falls into lexemes in one way: every lexeme starts where the one before it ended, a run of
digits with at most one point is as long as it can be, and any other character is a lexeme by
itself, but for blanks, which are dropped. -/

namespace LiveSheet.Lexing

open NumberLexeme Token

variable {c : Char} {cs text run after rest : List Char} {lexemes : List (List Char)}

/-- Digits with at most one point among them. -/
structure NumberRun (run : List Char) : Prop where
  ne_nil : run ≠ []
  all : ∀ c ∈ run, c.isDigit = true ∨ c = '.'
  points : run.count '.' ≤ 1

/-- The longest run of digits with at most one point at the front of the text `run ++ after`. -/
structure LongestNumber (run after : List Char) : Prop where
  numberRun : NumberRun run
  longest : ∀ run', NumberRun run' → run' <+: run ++ after → run'.length ≤ run.length

/-- The text falls into the lexemes, up to the rest. -/
inductive Falls :
    (text : List Char) → (lexemes : List (List Char)) → (rest : List Char) → Prop
  | stop (rest : List Char) : Falls rest [] rest
  | blank {c : Char} {text : List Char} {lexemes : List (List Char)} {rest : List Char}
      (hc : Text.isBlank c = true) (h : Falls text lexemes rest) :
      Falls (c :: text) lexemes rest
  | single {c : Char} {text : List Char} {lexemes : List (List Char)} {rest : List Char}
      (hblank : Text.isBlank c = false) (hc : startsWith c = false) (h : Falls text lexemes rest) :
      Falls (c :: text) ([c] :: lexemes) rest
  | number {run text : List Char} {lexemes : List (List Char)} {rest : List Char}
      (hrun : LongestNumber run text) (h : Falls text lexemes rest) :
      Falls (run ++ text) (run :: lexemes) rest

/-! ## Numbers -/

theorem NumberRun.exists_cons (h : NumberRun run) :
    ∃ c cs, run = c :: cs ∧ startsWith c = true := by
  obtain ⟨c, cs, rfl⟩ := List.exists_cons_of_ne_nil h.ne_nil
  exact ⟨c, cs, rfl, startsWith_eq_true_iff.mpr (h.all c List.mem_cons_self)⟩

/-- Two longest numbers at the front of one text are the same. -/
theorem LongestNumber.unique {run' after' : List Char} (h : LongestNumber run after)
    (h' : LongestNumber run' after') (heq : run ++ after = run' ++ after') :
    run = run' ∧ after = after' := by
  have hlength := h.longest run' h'.numberRun (heq ▸ List.prefix_append run' after')
  have hlength' := h'.longest run h.numberRun (heq ▸ List.prefix_append run after)
  exact List.append_inj heq (Nat.le_antisymm hlength' hlength)

theorem count_point_eq_zero (h : ∀ c ∈ cs, c.isDigit = true) : cs.count '.' = 0 := by
  rw [List.count_eq_zero]
  intro hpoint
  cases h '.' hpoint

/-- A lexeme that is written with digits, whether it has one or is only a point. -/
structure Digits (n : NumberLexeme) : Prop where
  whole : ∀ c ∈ n.whole, c.isDigit = true
  fraction : ∀ c ∈ n.fraction.getD [], c.isDigit = true

theorem Digits.count_point {n : NumberLexeme} (h : Digits n) :
    n.chars.count '.' = if n.fraction.isSome then 1 else 0 := by
  obtain ⟨whole, fraction⟩ := n
  have hwhole := count_point_eq_zero h.whole
  cases fraction with
  | none => exact hwhole
  | some ds =>
      have hfraction := count_point_eq_zero h.fraction
      simp only [Option.getD_some] at hfraction
      simp only [chars, List.count_append, List.count_cons_self, hwhole, hfraction]
      rfl

theorem Digits.numberRun {n : NumberLexeme} (h : Digits n) (hne : n.chars ≠ []) :
    NumberRun n.chars where
  ne_nil := hne
  points := by
    rw [h.count_point]
    split <;> decide
  all c hc := by
    obtain ⟨whole, fraction⟩ := n
    cases fraction with
    | none => exact .inl (h.whole c hc)
    | some ds =>
        rcases List.mem_append.mp hc with hc | hc
        · exact .inl (h.whole c hc)
        · exact (List.mem_cons.mp hc).symm.imp_left (h.fraction c)

/-- A lexeme is the longest number if no digit comes after it, nor a point unless it has one. -/
theorem Digits.longestNumber {n : NumberLexeme} (h : Digits n) (hne : n.chars ≠ [])
    (hafter : ∀ c ∈ after.head?, c.isDigit = false ∧ (c = '.' → n.fraction.isSome = true)) :
    LongestNumber n.chars after where
  numberRun := h.numberRun hne
  longest run hrun hprefix := by
    -- A longer run would go on with a digit, where there is none, or with a second point.
    by_contra hlonger
    obtain ⟨more, rfl⟩ := List.prefix_of_prefix_length_le (List.prefix_append n.chars after) hprefix
      (by omega)
    cases more with
    | nil => simp at hlonger
    | cons c more =>
        rw [List.prefix_append_right_inj] at hprefix
        obtain ⟨rest, rfl⟩ := hprefix
        obtain ⟨hdigit, hpoint⟩ := hafter c rfl
        have hc : c = '.' := (hrun.all c (by simp)).resolve_left (Bool.eq_false_iff.mp hdigit)
        have hcount := hrun.points
        rw [List.count_append, h.count_point, if_pos (hpoint hc), hc, List.count_cons_self]
          at hcount
        omega

/-- What is split off consists of digits before and after a point, and no more of them follow. -/
theorem split_spec (text : List Char) : Digits (split text).1 ∧
    ∀ c ∈ (split text).2.head?, c.isDigit = false ∧
      (c = '.' → (split text).1.fraction.isSome = true) := by
  unfold NumberLexeme.split
  split
  · exact ⟨⟨fun _ => List.mem_takeWhile_imp, fun _ => List.mem_takeWhile_imp⟩,
      fun c hc => ⟨eq_false_of_head?_dropWhile c hc, fun _ => rfl⟩⟩
  · next hpoint =>
    refine ⟨⟨fun _ => List.mem_takeWhile_imp, fun _ hc => by cases hc⟩, fun c hc => ?_⟩
    refine ⟨eq_false_of_head?_dropWhile c hc, ?_⟩
    rintro rfl
    obtain ⟨rest, hrest⟩ := List.head?_eq_some_iff.mp (Option.mem_def.mp hc)
    exact (hpoint rest hrest).elim

/-- The lexeme that is split off is the longest number. -/
theorem longestNumber_split (cs : List Char) (h : startsWith c = true) :
    LongestNumber (split (c :: cs)).1.chars (split (c :: cs)).2 := by
  obtain ⟨hdigits, hafter⟩ := split_spec (c :: cs)
  refine hdigits.longestNumber ?_ hafter
  intro hnil
  have htext := chars_append_split (c :: cs)
  have hshorter := split_length_lt c cs h
  rw [hnil, List.nil_append] at htext
  rw [htext] at hshorter
  exact Nat.lt_irrefl _ hshorter

/-! ## Falling into lexemes -/

namespace Falls

variable {rest' : List Char} {lexemes' : List (List Char)}

theorem length_le (h : Falls text lexemes rest) : rest.length ≤ text.length := by
  induction h with
  | stop => exact Nat.le_refl _
  | blank _ _ ih => exact Nat.le_succ_of_le ih
  | single _ _ _ ih => exact Nat.le_succ_of_le ih
  | number _ _ ih => rw [List.length_append]; omega

theorem trans (h : Falls text lexemes rest) (h' : Falls rest lexemes' rest') :
    Falls text (lexemes ++ lexemes') rest' := by
  induction h with
  | stop => exact h'
  | blank hc _ ih => exact .blank hc (ih h')
  | single hblank hc _ ih => exact .single hblank hc (ih h')
  | number hrun _ ih => exact .number hrun (ih h')

/-- A number in front of a text is a lexeme of every way in which the text falls. -/
theorem of_number (hrun : LongestNumber run after) (h : Falls (run ++ after) lexemes rest) :
    lexemes = [] ∧ rest = run ++ after ∨
      ∃ more, lexemes = run :: more ∧ Falls after more rest := by
  obtain ⟨c, cs, rfl, hc⟩ := hrun.numberRun.exists_cons
  generalize htext : c :: cs ++ after = text at h
  cases h with
  | stop => exact .inl ⟨rfl, rfl⟩
  | blank hblank _ =>
      cases htext
      rw [not_isBlank_of_startsWith hc] at hblank
      cases hblank
  | single _ hother _ =>
      cases htext
      rw [hc] at hother
      cases hother
  | number hrun' h =>
      obtain ⟨rfl, rfl⟩ := hrun.unique hrun' htext
      exact .inr ⟨_, rfl, h⟩

theorem of_not_startsWith (hc : startsWith c = false) (h : Falls (c :: cs) lexemes rest) :
    lexemes = [] ∧ rest = c :: cs ∨
      ∃ more, lexemes = (if Text.isBlank c then more else [c] :: more) ∧ Falls cs more rest := by
  generalize htext : c :: cs = text at h
  cases h with
  | stop => exact .inl ⟨rfl, rfl⟩
  | blank hblank h =>
      cases htext
      exact .inr ⟨_, (if_pos hblank).symm, h⟩
  | single hblank _ h =>
      cases htext
      exact .inr ⟨_, by rw [hblank]; rfl, h⟩
  | number hrun h =>
      obtain ⟨d, ds, rfl, hd⟩ := hrun.numberRun.exists_cons
      cases htext
      rw [hc] at hd
      cases hd

/-- Two ways in which a text falls into lexemes differ only in how far they go. -/
theorem exists_more (h : Falls text lexemes rest) (h' : Falls text lexemes' rest')
    (hle : rest'.length ≤ rest.length) :
    ∃ more, lexemes' = lexemes ++ more ∧ Falls rest more rest' := by
  induction h generalizing lexemes' with
  | stop => exact ⟨lexemes', rfl, h'⟩
  | blank hblank h ih =>
      have hlength := h.length_le
      have hc : startsWith _ = false := Bool.eq_false_iff.mpr fun hc => by
        rw [not_isBlank_of_startsWith hc] at hblank
        cases hblank
      rcases h'.of_not_startsWith hc with ⟨-, rfl⟩ | ⟨more, rfl, htail⟩
      · simp at hle
        omega
      · rw [if_pos hblank]
        exact ih htail hle
  | single hblank hc h ih =>
      have hlength := h.length_le
      rcases h'.of_not_startsWith hc with ⟨-, rfl⟩ | ⟨more, rfl, htail⟩
      · simp at hle
        omega
      · obtain ⟨more', rfl, hmore⟩ := ih htail hle
        exact ⟨more', by rw [hblank]; rfl, hmore⟩
  | number hrun h ih =>
      have hlength := h.length_le
      have hpos := List.length_pos_iff.mpr hrun.numberRun.ne_nil
      rcases of_number hrun h' with ⟨-, rfl⟩ | ⟨more, rfl, htail⟩
      · rw [List.length_append] at hle
        omega
      · obtain ⟨more', rfl, hmore⟩ := ih htail hle
        exact ⟨more', rfl, hmore⟩

/-- A text falls into lexemes up to its end in one way. -/
theorem unique (h : Falls text lexemes []) (h' : Falls text lexemes' []) : lexemes = lexemes' := by
  obtain ⟨more, hmore, -⟩ := h.exists_more h' (Nat.le_refl _)
  obtain ⟨more', hmore', -⟩ := h'.exists_more h (Nat.le_refl _)
  have hprefix : lexemes <+: lexemes' := ⟨more, hmore.symm⟩
  have hprefix' : lexemes' <+: lexemes := ⟨more', hmore'.symm⟩
  exact hprefix.eq_of_length_le hprefix'.length_le

/-- Every text falls into lexemes. -/
theorem exists_lexemes : ∀ text, ∃ lexemes, Falls text lexemes []
  | [] => ⟨[], .stop []⟩
  | c :: cs => by
      by_cases hc : startsWith c = true
      · have := split_length_lt c cs hc
        obtain ⟨lexemes, h⟩ := exists_lexemes (split (c :: cs)).2
        have hfalls := Falls.number (longestNumber_split cs hc) h
        rw [chars_append_split] at hfalls
        exact ⟨_, hfalls⟩
      · obtain ⟨lexemes, h⟩ := exists_lexemes cs
        cases hblank : Text.isBlank c with
        | true => exact ⟨_, .blank hblank h⟩
        | false => exact ⟨_, .single hblank (Bool.eq_false_iff.mpr hc) h⟩
termination_by text => text.length
decreasing_by
  · assumption
  · exact Nat.lt_succ_self _

/-- No character is lost but the blanks. -/
theorem exists_consumed (h : Falls text lexemes rest) : ∃ consumed, text = consumed ++ rest ∧
    lexemes.flatten = consumed.filter fun c => !Text.isBlank c := by
  induction h with
  | stop => exact ⟨[], rfl, rfl⟩
  | @blank c _ _ _ hc _ ih =>
      obtain ⟨consumed, rfl, hflatten⟩ := ih
      exact ⟨c :: consumed, rfl, by rw [hflatten]; simp [hc]⟩
  | @single c _ _ _ hblank _ _ ih =>
      obtain ⟨consumed, rfl, hflatten⟩ := ih
      exact ⟨c :: consumed, rfl, by simp [hflatten, hblank]⟩
  | @number run _ _ _ hrun _ ih =>
      obtain ⟨consumed, rfl, hflatten⟩ := ih
      have hkept : run.filter (fun c => !Text.isBlank c) = run := by
        refine List.filter_eq_self.mpr fun c hc => ?_
        rw [not_isBlank_of_startsWith
          (startsWith_eq_true_iff.mpr (hrun.numberRun.all c hc))]
        rfl
      refine ⟨run ++ consumed, (List.append_assoc _ _ _).symm, ?_⟩
      rw [List.flatten_cons, hflatten, List.filter_append, hkept]

/-- What comes before the rest. -/
theorem exists_before (h : Falls text lexemes rest) {p : Nat}
    (hp : p + rest.length = text.length) : ∃ before, text = before ++ rest ∧ before.length = p := by
  obtain ⟨consumed, rfl, -⟩ := h.exists_consumed
  rw [List.length_append] at hp
  exact ⟨consumed, rfl, by omega⟩

end Falls

end LiveSheet.Lexing
