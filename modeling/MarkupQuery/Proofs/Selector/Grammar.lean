import MarkupQuery.Proofs.Selector.Grouping

namespace MarkupQuery.Selector

inductive IsCompound : List Token → Compound → Prop where
  | element (name : Name) (filters : List Filter) :
      IsCompound (.element name :: filters.map Filter.token) ⟨some name, filters⟩
  | filters (first : Filter) (more : List Filter) :
      IsCompound (first.token :: more.map Filter.token) ⟨none, first :: more⟩

/-- Compounds with a combinator between each two. The first one has the descendant combinator, every
other one the combinator in front of it. -/
inductive IsBranch : List Token → Branch → Prop where
  | first {tokens : List Token} {compound : Compound} (h : IsCompound tokens compound) :
      IsBranch tokens [(.descendant, compound)]
  | step {tokens more : List Token} {branch : Branch} {compound : Compound}
      (h : IsBranch tokens branch) (combinator : Combinator) (hmore : IsCompound more compound) :
      IsBranch (tokens ++ combinator.token :: more) (branch ++ [(combinator, compound)])

inductive IsList : List Token → List Branch → Prop where
  | last {tokens : List Token} {branch : Branch} (h : IsBranch tokens branch) :
      IsList tokens [branch]
  | comma {tokens rest : List Token} {branch : Branch} {found : List Branch}
      (h : IsBranch tokens branch) (hrest : IsList rest found) :
      IsList (tokens ++ .comma :: rest) (branch :: found)

variable {tokens : List Token} {compound : Compound} {branch : Branch} {found : List Branch}

theorem isCompound_iff :
    IsCompound tokens compound ↔ compound.tokens = tokens ∧ tokens ≠ [] := by
  constructor
  · rintro (⟨name, filters⟩ | ⟨first, more⟩)
    · exact ⟨rfl, List.cons_ne_nil _ _⟩
    · exact ⟨rfl, List.cons_ne_nil _ _⟩
  · rintro ⟨rfl, hne⟩
    obtain ⟨element, filters⟩ := compound
    cases element with
    | some name => exact .element name filters
    | none =>
      cases filters with
      | nil => exact absurd rfl hne
      | cons first more => exact .filters first more

theorem stepTokens_append (branch more : Branch) :
    stepTokens (branch ++ more) = stepTokens branch ++ stepTokens more := List.flatMap_append

theorem stepTokens_ne_nil (h : branch ≠ []) : stepTokens branch ≠ [] := by
  obtain ⟨step, more, rfl⟩ := List.exists_cons_of_ne_nil h
  exact List.cons_ne_nil _ _

theorem Branch.Grouped.ne_nil (h : branch.Grouped) : branch ≠ [] := by
  obtain ⟨compound, rest, rfl⟩ := h.first
  exact List.cons_ne_nil _ _

theorem Branch.Grouped.append (h : branch.Grouped) {more : Branch}
    (hmore : ∀ step ∈ more, step.2.tokens ≠ []) : Branch.Grouped (branch ++ more) := by
  obtain ⟨compound, rest, rfl⟩ := h.first
  exact ⟨⟨compound, rest ++ more, rfl⟩, List.forall_mem_append.mpr ⟨h.compounds, hmore⟩⟩

theorem IsBranch.grouped (h : IsBranch tokens branch) :
    branch.Grouped ∧ branch.tokens = tokens := by
  induction h with
  | first h =>
    obtain ⟨rfl, hne⟩ := isCompound_iff.mp h
    exact ⟨⟨⟨_, [], rfl⟩, List.forall_mem_singleton.mpr hne⟩, List.append_nil _⟩
  | step _ combinator hmore ih =>
    obtain ⟨hgrouped, rfl⟩ := ih
    obtain ⟨rfl, hne⟩ := isCompound_iff.mp hmore
    refine ⟨hgrouped.append (List.forall_mem_singleton.mpr hne), ?_⟩
    have hsteps := stepTokens_ne_nil hgrouped.ne_nil
    rw [Branch.tokens, stepTokens_append, List.tail_append_of_ne_nil hsteps]
    exact congrArg _ (List.append_nil _)

theorem IsBranch.append (h : IsBranch tokens branch) {more : Branch}
    (hmore : ∀ step ∈ more, step.2.tokens ≠ []) :
    IsBranch (tokens ++ stepTokens more) (branch ++ more) := by
  induction more generalizing tokens branch with
  | nil => simpa [stepTokens] using h
  | cons step more ih =>
    obtain ⟨hstep, hmore⟩ := List.forall_mem_cons.mp hmore
    have hlonger := ih (h.step step.1 (isCompound_iff.mpr ⟨rfl, hstep⟩)) hmore
    simpa [stepTokens] using hlonger

theorem isBranch_iff : IsBranch tokens branch ↔ branch.Grouped ∧ branch.tokens = tokens := by
  refine ⟨IsBranch.grouped, ?_⟩
  rintro ⟨hgrouped, rfl⟩
  obtain ⟨compound, rest, rfl⟩ := hgrouped.first
  obtain ⟨hfirst, hrest⟩ := List.forall_mem_cons.mp hgrouped.compounds
  exact (IsBranch.first (isCompound_iff.mpr ⟨rfl, hfirst⟩)).append hrest

theorem spells_singleton : Spells [branch] tokens ↔ IsBranch tokens branch := by
  rw [isBranch_iff]
  constructor
  · rintro ⟨-, hgrouped, rfl⟩
    exact ⟨List.forall_mem_singleton.mp hgrouped, List.intercalate_singleton.symm⟩
  · rintro ⟨hgrouped, rfl⟩
    exact ⟨List.cons_ne_nil _ _, List.forall_mem_singleton.mpr hgrouped,
      List.intercalate_singleton.symm⟩

/-- What branches stand for is what the grammar makes them of. -/
theorem spells_iff_isList : Spells found tokens ↔ IsList tokens found := by
  constructor
  · intro h
    induction found generalizing tokens with
    | nil => exact absurd rfl h.ne_nil
    | cons first more ih =>
      by_cases hmore : more = []
      · subst hmore
        exact .last (spells_singleton.mp h)
      · obtain ⟨-, hgrouped, rfl⟩ := h
        obtain ⟨hfirst, hrest⟩ := List.forall_mem_cons.mp hgrouped
        rw [List.map_cons, List.intercalate_cons_of_ne_nil (by simpa using hmore),
          List.append_assoc]
        exact .comma (isBranch_iff.mpr ⟨hfirst, rfl⟩) (ih ⟨hmore, hrest, rfl⟩)
  · intro h
    induction h with
    | last h => exact spells_singleton.mpr h
    | comma h _ ih =>
      obtain ⟨hgrouped, rfl⟩ := isBranch_iff.mp h
      exact ih.cons hgrouped

/-- Tokens are grouped if they are a list of the grammar, into the branches that it makes of them,
and there is an error for all other tokens. -/
theorem branches_iff_grammar (selector : String) (placed : List Placed) :
    (∀ found, branches selector placed = .ok found ↔ IsList (placed.map Placed.token) found) ∧
      ((∃ e, branches selector placed = .error e) ↔
        ¬ ∃ found, IsList (placed.map Placed.token) found) := by
  have hok : ∀ found, branches selector placed = .ok found ↔
      IsList (placed.map Placed.token) found :=
    fun found => branches_iff_spells.trans spells_iff_isList
  refine ⟨hok, ?_⟩
  simp only [← hok]
  cases branches selector placed <;> simp

/-- A filter alone, and two compounds of a branch. -/
example : IsList [.id "a", .comma, .element ⟨none, "b"⟩, .child, .className "c"]
    [[(.descendant, ⟨none, [.id "a"]⟩)],
      [(.descendant, ⟨some ⟨none, "b"⟩, []⟩), (.child, ⟨none, [.className "c"]⟩)]] :=
  .comma (.first (.filters (.id "a") [])) <|
    .last ((IsBranch.first (.element ⟨none, "b"⟩ [])).step .child (.filters (.className "c") []))

end MarkupQuery.Selector
