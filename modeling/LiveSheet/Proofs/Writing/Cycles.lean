import LiveSheet.Proofs.Writing

/-! # Cycles among some cells

A cycle may be looked for among some of the cells only, and the cells may be looked at in parts.
If no reference leads from one part to the other, a cycle cannot visit both and come back. -/

namespace LiveSheet.Writing

variable {t t' : Writing} {c p : Coord} {cells cells' first rest : Set Coord}

/-- The formula of `c` refers to `p`, and both are among the given cells. -/
def RefersWithin (t : Writing) (cells : Set Coord) (c p : Coord) : Prop :=
  t.Refers c p ∧ c ∈ cells ∧ p ∈ cells

/-- The references between the given cells have a cycle. -/
def CycleWithin (t : Writing) (cells : Set Coord) : Prop :=
  ∃ c, Relation.TransGen (t.RefersWithin cells) c c

theorem CycleWithin.mono (h : t.CycleWithin cells) (hcells : ∀ c ∈ cells, c ∈ cells') :
    t.CycleWithin cells' := by
  obtain ⟨c, hcycle⟩ := h
  exact ⟨c, hcycle.lift id fun a b ⟨hab, ha, hb⟩ => ⟨hab, hcells a ha, hcells b hb⟩⟩

/-- Only the texts of the given cells count. -/
theorem CycleWithin.congr (h : t.CycleWithin cells) (htext : ∀ c ∈ cells, t c = t' c) :
    t'.CycleWithin cells := by
  have hrefers : ∀ a b, t.RefersWithin cells a b → t'.RefersWithin cells a b := by
    rintro a b ⟨hab, ha, hb⟩
    rw [Refers, references_congr (htext a ha)] at hab
    exact ⟨hab, ha, hb⟩
  obtain ⟨c, hcycle⟩ := h
  exact ⟨c, hcycle.lift id hrefers⟩

theorem cycleWithin_congr (htext : ∀ c ∈ cells, t c = t' c) :
    t.CycleWithin cells ↔ t'.CycleWithin cells :=
  ⟨fun h => h.congr htext, fun h => h.congr fun c hc => (htext c hc).symm⟩

theorem CycleWithin.exists_refers (h : t.CycleWithin cells) :
    ∃ a ∈ cells, ∃ b ∈ cells, t.Refers a b := by
  obtain ⟨c, hcycle⟩ := h
  obtain ⟨p, ⟨hcp, hc, hp⟩, -⟩ := Relation.TransGen.head'_iff.mp hcycle
  exact ⟨c, hc, p, hp, hcp⟩

/-- A reference and a path back from its end. -/
theorem CycleWithin.of_refers (hcp : t.RefersWithin cells c p)
    (hpath : Relation.ReflTransGen (t.RefersWithin cells) p c) : t.CycleWithin cells :=
  ⟨c, .head' hcp hpath⟩

/-! ## Two parts -/

/-- A path that starts in the part that no reference leaves ends there. -/
theorem path_of_mem_first (h : ∀ a ∈ first, ∀ b ∈ rest, ¬t.Refers a b)
    (hpath : Relation.TransGen (t.RefersWithin (first ∪ rest)) c p) (hc : c ∈ first) :
    Relation.TransGen (t.RefersWithin first) c p ∧ p ∈ first := by
  have hstep : ∀ {a b}, t.RefersWithin (first ∪ rest) a b → a ∈ first → b ∈ first :=
    fun ⟨hab, _, hb⟩ ha => hb.resolve_right fun hb => h _ ha _ hb hab
  induction hpath with
  | single hcb => exact ⟨.single ⟨hcb.1, hc, hstep hcb hc⟩, hstep hcb hc⟩
  | tail _ hab ih =>
      obtain ⟨hpath', ha⟩ := ih
      exact ⟨hpath'.tail ⟨hab.1, ha, hstep hab ha⟩, hstep hab ha⟩

/-- A path that ends outside that part has never been in it. -/
theorem path_of_not_mem_first (h : ∀ a ∈ first, ∀ b ∈ rest, ¬t.Refers a b)
    (hpath : Relation.TransGen (t.RefersWithin (first ∪ rest)) c p) (hp : p ∉ first) :
    Relation.TransGen (t.RefersWithin rest) c p ∧ c ∉ first := by
  have hstep : ∀ {a b}, t.RefersWithin (first ∪ rest) a b → b ∉ first → a ∉ first :=
    fun ⟨hab, _, hb⟩ hnot ha => h _ ha _ (hb.resolve_left hnot) hab
  have hwithin : ∀ {a b}, t.RefersWithin (first ∪ rest) a b → b ∉ first →
      t.RefersWithin rest a b := fun hab hnot =>
    ⟨hab.1, hab.2.1.resolve_left (hstep hab hnot), hab.2.2.resolve_left hnot⟩
  induction hpath using Relation.TransGen.head_induction_on with
  | single hap => exact ⟨.single (hwithin hap hp), hstep hap hp⟩
  | head hab _ ih =>
      obtain ⟨hpath', hb⟩ := ih
      exact ⟨.head (hwithin hab hb) hpath', hstep hab hb⟩

theorem cycleWithin_union_iff (h : ∀ a ∈ first, ∀ b ∈ rest, ¬t.Refers a b) :
    t.CycleWithin (first ∪ rest) ↔ t.CycleWithin first ∨ t.CycleWithin rest := by
  constructor
  · rintro ⟨c, hcycle⟩
    by_cases hc : c ∈ first
    · exact .inl ⟨c, (path_of_mem_first h hcycle hc).1⟩
    · exact .inr ⟨c, (path_of_not_mem_first h hcycle hc).1⟩
  · rintro (hcycle | hcycle)
    · exact hcycle.mono fun _ => .inl
    · exact hcycle.mono fun _ => .inr

/-! ## All cells -/

/-- Every cell that a path leaves has text. -/
theorem transGen_refersWithin (hcells : ∀ c, t c ≠ none → c ∈ cells)
    (hpath : Relation.TransGen t.Refers c p) (hp : p ∈ cells) :
    Relation.TransGen (t.RefersWithin cells) c p := by
  have hmem : ∀ {a b}, t.Refers a b → a ∈ cells := fun hab => by
    obtain ⟨raw, hraw, -⟩ := hab.exists_formula
    exact hcells _ (hraw ▸ Option.some_ne_none raw)
  induction hpath using Relation.TransGen.head_induction_on with
  | single hap => exact .single ⟨hap, hmem hap, hp⟩
  | head hab hbp ih =>
      obtain ⟨_, hb, -⟩ := Relation.TransGen.head'_iff.mp hbp
      exact .head ⟨hab, hmem hab, hmem hb⟩ ih

/-- A cycle lies among the cells with text, wherever it lies. -/
theorem cycleWithin_iff_exists_onCycle (hcells : ∀ c, t c ≠ none → c ∈ cells) :
    t.CycleWithin cells ↔ ∃ c, t.OnCycle c := by
  constructor
  · rintro ⟨c, hcycle⟩
    exact ⟨c, hcycle.lift id fun _ _ hab => hab.1⟩
  · rintro ⟨c, hcycle⟩
    refine ⟨c, transGen_refersWithin hcells hcycle ?_⟩
    obtain ⟨p, hcp, -⟩ := Relation.TransGen.head'_iff.mp hcycle
    obtain ⟨raw, hraw, -⟩ := hcp.exists_formula
    exact hcells c (hraw ▸ Option.some_ne_none raw)

end LiveSheet.Writing
