import LiveSheet.Proofs.Formula.Pieces

/-! # Where the references of a formula stand

A reference stands in a text wherever a longest run of capital letters is directly followed by a
longest run of digits. What stands in a text that is cut in two stands in one of its parts, unless
letters are cut from letters or from their digits; so cutting a formula into pieces finds all the
references of its text, and no others. -/

namespace LiveSheet

variable {text first before letters digits token after rest : List Char}

/-- In the text, the token stands as a reference between `before` and `after`: it is letters that
are directly followed by digits, and neither goes on beyond it. -/
inductive Occurs : (text before token after : List Char) → Prop
  | intro {before letters digits after : List Char}
      (hletters : MaximalRun Char.isUpper before letters (digits ++ after))
      (hdigits : MaximalRun Char.isDigit (before ++ letters) digits after) :
      Occurs (before ++ (letters ++ (digits ++ after))) before (letters ++ digits) after

namespace Occurs

theorem text_eq (h : Occurs text before token after) : text = before ++ (token ++ after) := by
  obtain ⟨-, -⟩ := h
  rw [List.append_assoc]

theorem starts (h : Occurs text before token after) :
    ∀ c ∈ before.getLast?, c.isUpper = false := by
  obtain ⟨hletters, -⟩ := h
  exact hletters.starts

theorem exists_cons (h : Occurs text before token after) :
    ∃ c rest, token = c :: rest ∧ c.isUpper = true := by
  obtain ⟨hletters, -⟩ := h
  obtain ⟨c, rest, rfl⟩ := List.exists_cons_of_ne_nil hletters.ne_nil
  exact ⟨c, _, rfl, hletters.all c List.mem_cons_self⟩

/-- Only what stands right before the letters matters. -/
theorem of_starts {before' : List Char} (h : Occurs text before token after)
    (hstarts : ∀ c ∈ before'.getLast?, c.isUpper = false) :
    Occurs (before' ++ (token ++ after)) before' token after := by
  obtain ⟨hletters, hdigits⟩ := h
  rw [List.append_assoc]
  refine .intro { hletters with starts := hstarts } { hdigits with starts := ?_ }
  intro c hc
  refine hdigits.starts c ?_
  rwa [List.getLast?_append_of_ne_nil _ hletters.ne_nil] at hc ⊢

/-- What occurs among the letters at the front of a text begins with them all. -/
theorem of_letters {c : Char} {more : List Char} (h : Occurs (letters ++ rest) before token after)
    (hletters : MaximalRun Char.isUpper [] letters rest) (hinside : letters = before ++ c :: more) :
    before = [] ∧ ∃ digits, token = letters ++ digits ∧ rest = digits ++ after ∧
      MaximalRun Char.isDigit letters digits after := by
  have hbefore : before = [] := by
    rcases List.eq_nil_or_concat before with hnil | ⟨init, d, rfl⟩
    · exact hnil
    · have hupper := hletters.all d (by rw [hinside]; simp)
      rw [h.starts d (by simp)] at hupper
      cases hupper
  refine ⟨hbefore, ?_⟩
  subst hbefore
  generalize htext : letters ++ rest = text at h
  obtain ⟨hletters', hdigits⟩ := h
  obtain ⟨rfl, rfl⟩ := hletters.unique hletters' htext
  exact ⟨_, rfl, rfl, hdigits⟩

end Occurs

/-! ## Cutting a text -/

/-- A cut that does not go through capital letters makes no difference to what occurs after it. -/
theorem occurs_append_append_iff (hcut : (∀ c ∈ first.getLast?, c.isUpper = false) ∨
      ∀ c ∈ text.head?, c.isUpper = false) :
    Occurs (first ++ text) (first ++ before) token after ↔ Occurs text before token after := by
  constructor
  · intro h
    have htext := h.text_eq
    rw [List.append_assoc, List.append_cancel_left_eq] at htext
    rw [htext]
    refine h.of_starts fun c hc => h.starts c ?_
    rw [List.getLast?_append, Option.mem_def.mp hc]
    rfl
  · intro h
    have htext := h.text_eq
    subst htext
    rw [← List.append_assoc]
    refine h.of_starts fun c hc => ?_
    cases before with
    | cons d rest =>
        rw [List.getLast?_append_of_ne_nil _ (List.cons_ne_nil d rest)] at hc
        exact h.starts c hc
    | nil =>
        rw [List.append_nil] at hc
        rcases hcut with hfirst | htext
        · exact hfirst c hc
        · obtain ⟨d, rest, rfl, hd⟩ := h.exists_cons
          rw [htext d rfl] at hd
          cases hd

/-- What occurs in a text that is cut in two begins before the cut, or occurs after it. -/
theorem occurs_append_iff (hcut : (∀ c ∈ first.getLast?, c.isUpper = false) ∨
      ∀ c ∈ text.head?, c.isUpper = false) :
    Occurs (first ++ text) before token after ↔
      ((∃ c rest, c.isUpper = true ∧ first = before ++ c :: rest) ∧
        Occurs (first ++ text) before token after) ∨
      ∃ before', before = first ++ before' ∧ Occurs text before' token after := by
  constructor
  · intro h
    rcases List.append_eq_append_iff.mp h.text_eq with ⟨before', rfl, -⟩ | ⟨inside, hfirst, htoken⟩
    · exact .inr ⟨before', rfl, (occurs_append_append_iff hcut).mp h⟩
    · cases inside with
      | nil =>
          rw [List.append_nil] at hfirst
          subst hfirst
          refine .inr ⟨[], (List.append_nil _).symm, (occurs_append_append_iff hcut).mp ?_⟩
          rwa [List.append_nil]
      | cons d inside =>
          obtain ⟨c, rest, rfl, hc⟩ := h.exists_cons
          rw [List.cons_append, List.cons_append, List.cons.injEq] at htoken
          obtain ⟨rfl, -⟩ := htoken
          exact .inl ⟨⟨c, inside, hc, hfirst⟩, h⟩
  · rintro (⟨-, h⟩ | ⟨before', rfl, h⟩)
    · exact h
    · exact (occurs_append_append_iff hcut).mpr h

/-- Where there are no capital letters, nothing occurs. -/
theorem occurs_append_iff_of_others (hfirst : ∀ c ∈ first, c.isUpper = false) :
    Occurs (first ++ text) before token after ↔
      ∃ before', before = first ++ before' ∧ Occurs text before' token after := by
  have hlast : ∀ c ∈ first.getLast?, c.isUpper = false :=
    fun c hc => hfirst c (List.mem_of_mem_getLast? hc)
  rw [occurs_append_iff (.inl hlast)]
  refine or_iff_right ?_
  rintro ⟨⟨c, rest, hc, hinside⟩, -⟩
  rw [hfirst c (by rw [hinside]; simp)] at hc
  cases hc

/-- What occurs in a text that begins with capital letters is these with the digits after them, or
occurs after the letters. -/
theorem occurs_append_iff_of_letters (hletters : MaximalRun Char.isUpper [] letters rest) :
    Occurs (letters ++ rest) before token after ↔
      (before = [] ∧ ∃ digits, token = letters ++ digits ∧ rest = digits ++ after ∧
        MaximalRun Char.isDigit letters digits after) ∨
      ∃ before', before = letters ++ before' ∧ Occurs rest before' token after := by
  rw [occurs_append_iff (.inr hletters.ends)]
  refine or_congr_left ⟨?_, ?_⟩
  · rintro ⟨⟨c, more, -, hinside⟩, h⟩
    exact h.of_letters hletters hinside
  · rintro ⟨rfl, digits, rfl, rfl, hdigits⟩
    have hoccurs : Occurs ([] ++ (letters ++ (digits ++ after))) [] (letters ++ digits) after :=
      .intro hletters hdigits
    obtain ⟨c, more, hmore⟩ := List.exists_cons_of_ne_nil hletters.ne_nil
    exact ⟨⟨c, more, hletters.all c (by simp [hmore]), hmore⟩, hoccurs⟩

/-! ## The pieces of a text -/

namespace Segment

/-- What occurs in a text is its first piece, or occurs after it. -/
theorem occurs_split_iff (c : Char) (rest : List Char) : Occurs (c :: rest) before token after ↔
    (split (c :: rest) = (ofToken (String.ofList token), after) ∧ before = []) ∨
      ∃ before', before = (split (c :: rest)).1.text.toList ++ before' ∧
        Occurs (split (c :: rest)).2 before' token after := by
  have htext := text_append_split (c :: rest)
  rcases split_runs c rest with ⟨run, tail, hsplit, hrun⟩ |
    ⟨letters, tail, hsplit, hletters, hnone⟩ | ⟨letters, digits, tail, hsplit, hletters, hdigits⟩
  · rw [hsplit] at htext ⊢
    simp only [Segment.text, String.toList_ofList] at htext ⊢
    rw [← htext, occurs_append_iff_of_others fun d hd => by simpa using hrun.all d hd]
    refine (or_iff_right ?_).symm
    rintro ⟨⟨⟩, -⟩
  · rw [hsplit] at htext ⊢
    simp only [Segment.text, String.toList_ofList] at htext ⊢
    rw [← htext, occurs_append_iff_of_letters hletters]
    refine or_congr_left (iff_of_false ?_ (by rintro ⟨⟨⟩, -⟩))
    rintro ⟨-, digits, -, rfl, hdigits⟩
    obtain ⟨d, digits, rfl⟩ := List.exists_cons_of_ne_nil hdigits.ne_nil
    have hdigit := hdigits.all d List.mem_cons_self
    rw [hnone d rfl] at hdigit
    cases hdigit
  · rw [hsplit] at htext ⊢
    simp only [Segment.text, ofToken, String.toList_ofList] at htext ⊢
    have hothers : ∀ d ∈ digits, d.isUpper = false :=
      fun d hd => Coord.isUpper_of_isDigit (hdigits.all d hd)
    rw [← htext, List.append_assoc, occurs_append_iff_of_letters hletters]
    simp only [occurs_append_iff_of_others hothers]
    refine or_congr ⟨?_, ?_⟩ ⟨?_, ?_⟩
    · rintro ⟨rfl, digits', rfl, heq, hdigits'⟩
      obtain ⟨rfl, rfl⟩ := hdigits.unique hdigits' heq
      exact ⟨rfl, rfl⟩
    · rintro ⟨heq, rfl⟩
      simp only [Prod.mk.injEq, reference.injEq, String.ofList_inj] at heq
      obtain ⟨⟨rfl, -⟩, rfl⟩ := heq
      exact ⟨rfl, digits, rfl, rfl, hdigits⟩
    · rintro ⟨_, rfl, before', rfl, h⟩
      exact ⟨before', (List.append_assoc _ _ _).symm, h⟩
    · rintro ⟨before', rfl, h⟩
      exact ⟨_, List.append_assoc _ _ _, before', rfl, h⟩

/-- The references among the pieces of a text are what occurs in it. -/
theorem reference_mem_iff (text : List Char) {token : String} {target : Except CellError Coord} :
    (∃ first rest, ofCharsOnto [] text = first ++ .reference token target :: rest ∧
      chars first = before ∧ chars rest = after) ↔
    Occurs text before token.toList after ∧ target = Coord.ofToken token := by
  induction text using split_induct generalizing before with
  | nil =>
      rw [ofCharsOnto]
      refine iff_of_false ?_ ?_
      · rintro ⟨first, rest, h, -⟩
        simp at h
      · rintro ⟨h, -⟩
        obtain ⟨c, rest, hc, -⟩ := h.exists_cons
        have htext := h.text_eq
        simp [hc] at htext
  | cons c rest ih =>
      have htail := chars_ofCharsOnto (split (c :: rest)).2
      rw [ofCharsOnto_cons, occurs_split_iff, String.ofList_toList]
      constructor
      · rintro ⟨first, more, h, rfl, rfl⟩
        cases first with
        | nil =>
            obtain ⟨hsegment, rfl⟩ := List.cons.inj h
            obtain rfl := target_eq_of_split (Prod.ext hsegment rfl)
            exact ⟨.inl ⟨Prod.ext hsegment htail.symm, rfl⟩, rfl⟩
        | cons s first =>
            obtain ⟨rfl, hrest⟩ := List.cons.inj h
            obtain ⟨hoccurs, htarget⟩ := ih.mp ⟨first, more, hrest, rfl, rfl⟩
            exact ⟨.inr ⟨_, rfl, hoccurs⟩, htarget⟩
      · rintro ⟨⟨hsplit, rfl⟩ | ⟨before', rfl, hoccurs⟩, rfl⟩
        · rw [hsplit] at htail ⊢
          exact ⟨[], _, rfl, rfl, htail⟩
        · obtain ⟨first, more, h, rfl, rfl⟩ := ih.mpr ⟨hoccurs, rfl⟩
          exact ⟨_ :: first, more, congrArg _ h, rfl, rfl⟩

end Segment

namespace Formula

theorem normalizeChars_eq (raw : List Char) : normalizeChars raw =
    (if raw.head? = some '=' then raw.tail else raw).filter fun c =>
      !Text.isBlank c && c != '$' := by
  cases raw with
  | nil => rfl
  | cons c rest =>
      by_cases hc : c = '='
      · subst hc
        rfl
      · simp [normalizeChars, hc]

/-- Reading a formula loses nothing of its normalised text and finds the references that stand in
it, each in its place, and no others. -/
theorem segments_exact (raw : String) :
    (ofRaw raw).source.toList =
      ((if raw.toList.head? = some '=' then raw.toList.tail else raw.toList).filter fun c =>
        !Text.isBlank c && c != '$') ∧
    Segment.chars (ofRaw raw).segments = (ofRaw raw).source.toList ∧
    (∀ s ∈ (ofRaw raw).segments, s.text ≠ "") ∧
    ∀ before token after target,
      (∃ first rest, (ofRaw raw).segments = first ++ .reference token target :: rest ∧
        Segment.chars first = before ∧ Segment.chars rest = after) ↔
      Occurs (ofRaw raw).source.toList before token.toList after ∧
        target = Coord.ofToken token := by
  refine ⟨?_, Segment.chars_ofCharsOnto _, fun s => Segment.text_ne_empty_of_mem,
    fun before token after target => Segment.reference_mem_iff _⟩
  rw [ofRaw, normalize, String.toList_ofList, normalizeChars_eq]

end Formula

end LiveSheet
