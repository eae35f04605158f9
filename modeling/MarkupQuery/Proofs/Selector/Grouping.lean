import MarkupQuery.Proofs.Query.Steps
import MarkupQuery.Selector.Compound

namespace MarkupQuery.Selector

open MarkupQuery.Query

def Filter.token : Filter → Token
  | .id value => .id value
  | .className value => .className value
  | .attribute name comparison value => .attribute name comparison value

def Compound.tokens (compound : Compound) : List Token :=
  (compound.element.map Token.element).toList ++ compound.filters.map Filter.token

def Combinator.token : Combinator → Token
  | child => .child
  | descendant => .descendant

def stepTokens (steps : Branch) : List Token :=
  steps.flatMap fun (combinator, compound) => combinator.token :: compound.tokens

/-- The tokens of a branch, whose first combinator is written nowhere. -/
def Branch.tokens (branch : Branch) : List Token := (stepTokens branch).tail

structure Branch.Grouped (branch : Branch) : Prop where
  first : ∃ compound rest, branch = (.descendant, compound) :: rest
  compounds : ∀ step ∈ branch, step.2.tokens ≠ []

structure Draft.Grouped (draft : Draft) : Prop where
  first : (draft.steps = [] ∧ draft.pending = .descendant) ∨
    ∃ compound rest, draft.steps = (.descendant, compound) :: rest
  compounds : ∀ step ∈ draft.steps, step.2.tokens ≠ []
  current : ∀ compound ∈ draft.current, compound.tokens ≠ []

def Draft.written (draft : Draft) : List Token :=
  stepTokens draft.steps ++ draft.pending.token :: (draft.current.map Compound.tokens).getD []

variable {selector : String} {draft longer : Draft} {branch : Branch} {offset : Nat} {token : Token}

theorem Draft.Grouped.empty : Draft.Grouped {} :=
  ⟨.inl ⟨rfl, rfl⟩, by simp, by simp⟩

theorem grouped_addFilter (h : draft.Grouped) (filter : Filter) :
    (draft.addFilter filter).Grouped ∧
      (draft.addFilter filter).written = draft.written ++ [filter.token] := by
  refine ⟨⟨h.first, h.compounds, ?_⟩, ?_⟩
  · intro compound hcompound
    obtain rfl := Option.some.inj hcompound
    simp [Compound.tokens]
  · cases hcurrent : draft.current with
    | none => simp [Draft.written, Draft.addFilter, hcurrent, Compound.tokens]
    | some compound => simp [Draft.written, Draft.addFilter, hcurrent, Compound.tokens]

theorem grouped_addElement (h : draft.Grouped) {name : Name}
    (ha : draft.addElement selector offset name = .ok longer) :
    longer.Grouped ∧ longer.written = draft.written ++ [.element name] := by
  unfold Draft.addElement at ha
  cases hcurrent : draft.current with
  | some compound => simp [hcurrent] at ha
  | none =>
    simp only [hcurrent, Except.ok.injEq] at ha
    subst ha
    refine ⟨⟨h.first, h.compounds, by simp [Compound.tokens]⟩, ?_⟩
    simp [Draft.written, hcurrent, Compound.tokens]

/-- The compound that a combinator or the end of a branch completes. -/
theorem grouped_step (h : draft.Grouped) {compound : Compound} (hc : draft.current = some compound) :
    Branch.Grouped (draft.steps ++ [(draft.pending, compound)]) ∧
      stepTokens (draft.steps ++ [(draft.pending, compound)]) = draft.written := by
  refine ⟨⟨?_, ?_⟩, by simp [Draft.written, hc, stepTokens]⟩
  · rcases h.first with ⟨hsteps, hpending⟩ | ⟨first, rest, hsteps⟩
    · exact ⟨compound, [], by rw [hsteps, hpending]; rfl⟩
    · exact ⟨first, rest ++ [(draft.pending, compound)], by rw [hsteps]; rfl⟩
  · intro step hstep
    rcases List.mem_append.mp hstep with hstep | hstep
    · exact h.compounds step hstep
    · obtain rfl := List.mem_singleton.mp hstep
      exact h.current compound hc

theorem grouped_addCombinator (h : draft.Grouped) {combinator : Combinator}
    (ha : draft.addCombinator selector offset combinator = .ok longer) :
    longer.Grouped ∧ longer.written = draft.written ++ [combinator.token] := by
  unfold Draft.addCombinator at ha
  cases hcurrent : draft.current with
  | none => simp [hcurrent] at ha
  | some compound =>
    simp only [hcurrent, Except.ok.injEq] at ha
    subst ha
    obtain ⟨hgrouped, hwritten⟩ := grouped_step h hcurrent
    refine ⟨⟨.inr hgrouped.first, hgrouped.compounds, by simp⟩, ?_⟩
    rw [← hwritten]
    simp [Draft.written]

/-- A token that is not a comma is written behind the others. -/
theorem grouped_add (h : draft.Grouped) (hcomma : token ≠ .comma)
    (ha : draft.add selector offset token = .ok longer) :
    longer.Grouped ∧ longer.written = draft.written ++ [token] := by
  cases token with
  | element name => exact grouped_addElement h ha
  | id value => exact Except.ok.inj ha ▸ grouped_addFilter h (.id value)
  | className value => exact Except.ok.inj ha ▸ grouped_addFilter h (.className value)
  | «attribute» name comparison value =>
    exact Except.ok.inj ha ▸ grouped_addFilter h (.attribute name comparison value)
  | child => exact grouped_addCombinator h ha
  | descendant => exact grouped_addCombinator h ha
  | comma => exact absurd rfl hcomma

theorem grouped_finish (h : draft.Grouped) (hf : draft.finish selector offset = .ok branch) :
    branch.Grouped ∧ stepTokens branch = draft.written := by
  unfold Draft.finish at hf
  cases hcurrent : draft.current with
  | none => cases hlast : draft.lastCombinator? <;> simp [hcurrent, hlast] at hf
  | some compound =>
    simp only [hcurrent, Except.ok.injEq] at hf
    exact hf ▸ grouped_step h hcurrent

theorem written_ne_nil (draft : Draft) : draft.written ≠ [] := by
  simp [Draft.written]

/-- Branches that stand for tokens: written one after the other, with commas between them, they give
the tokens back. -/
structure Spells (found : List Branch) (tokens : List Token) : Prop where
  ne_nil : found ≠ []
  grouped : ∀ branch ∈ found, branch.Grouped
  tokens_eq : tokens = [Token.comma].intercalate (found.map Branch.tokens)

theorem Spells.cons {found : List Branch} {tokens : List Token} (hb : branch.Grouped)
    (h : Spells found tokens) : Spells (branch :: found) (branch.tokens ++ .comma :: tokens) := by
  refine ⟨by simp, List.forall_mem_cons.mpr ⟨hb, h.grouped⟩, ?_⟩
  rw [List.map_cons, List.intercalate_cons_of_ne_nil (by simpa using h.ne_nil), ← h.tokens_eq]
  simp

theorem Branch.Grouped.tokens_ne_nil (h : branch.Grouped) : branch.tokens ≠ [] := by
  obtain ⟨compound, rest, rfl⟩ := h.first
  have hne := h.compounds _ List.mem_cons_self
  simp [Branch.tokens, stepTokens, hne]

theorem Spells.tokens_ne_nil {found : List Branch} {tokens : List Token} (h : Spells found tokens) :
    tokens ≠ [] := by
  obtain ⟨first, more, rfl⟩ := List.exists_cons_of_ne_nil h.ne_nil
  have hfirst := (h.grouped first List.mem_cons_self).tokens_ne_nil
  rw [h.tokens_eq, List.map_cons]
  cases more with
  | nil => simpa using hfirst
  | cons second more => simp [List.intercalate_cons_of_ne_nil]

theorem spells_branchesFrom {placed : List Placed} {found : List Branch} (h : draft.Grouped)
    (hf : branchesFrom selector draft placed = .ok found) :
    Spells found (draft.written.tail ++ placed.map Placed.token) := by
  induction placed generalizing draft found with
  | nil =>
    simp only [branchesFrom, bind_eq_ok, pure, Except.pure, Except.ok.injEq] at hf
    obtain ⟨branch, hbranch, rfl⟩ := hf
    obtain ⟨hgrouped, hwritten⟩ := grouped_finish h hbranch
    refine ⟨by simp, by simpa using hgrouped, ?_⟩
    simp [Branch.tokens, hwritten]
  | cons next placed ih =>
    obtain ⟨token, offset⟩ := next
    by_cases hcomma : token = .comma
    · subst hcomma
      simp only [branchesFrom, bind_eq_ok, pure, Except.pure, Except.ok.injEq] at hf
      obtain ⟨branch, hbranch, others, hothers, rfl⟩ := hf
      obtain ⟨hgrouped, hwritten⟩ := grouped_finish h hbranch
      have hspells := (ih Draft.Grouped.empty hothers).cons hgrouped
      rw [Branch.tokens, hwritten] at hspells
      exact hspells
    · rw [branchesFrom, bind_eq_ok] at hf
      · obtain ⟨longer, hlonger, hrest⟩ := hf
        obtain ⟨hgrouped, hwritten⟩ := grouped_add h hcomma hlonger
        have hspells := ih hgrouped hrest
        rw [hwritten, List.tail_append_of_ne_nil (written_ne_nil draft), List.append_assoc] at hspells
        exact hspells
      · exact hcomma

/-- The branches of a selector stand for its tokens. -/
theorem spells_branches {placed : List Placed} {found : List Branch}
    (h : branches selector placed = .ok found) : Spells found (placed.map Placed.token) :=
  spells_branchesFrom Draft.Grouped.empty h

section Converse

variable {placed rest : List Placed} {steps more : Branch} {compound : Compound}
  {pending : Combinator} {last? : Option Nat} {found : List Branch}

theorem branchesFrom_cons {next : Placed} (hcomma : next.token ≠ .comma) :
    branchesFrom selector draft (next :: rest) =
      draft.add selector next.offset next.token >>= fun longer =>
        branchesFrom selector longer rest := by
  obtain ⟨token, offset⟩ := next
  cases token <;> first | rfl | exact absurd rfl hcomma

theorem add_filter (draft : Draft) (filter : Filter) (offset : Nat) :
    draft.add selector offset filter.token = .ok (draft.addFilter filter) := by
  cases filter <;> rfl

theorem token_ne_comma (filter : Filter) : filter.token ≠ .comma := by
  cases filter <;> simp [Filter.token]

theorem branchesFrom_filters {filters : List Filter}
    (h : placed.map Placed.token = filters.map Filter.token) :
    branchesFrom selector ⟨steps, some compound, pending, last?⟩ (placed ++ rest) =
      branchesFrom selector
        ⟨steps, some ⟨compound.element, compound.filters ++ filters⟩, pending, last?⟩ rest := by
  induction filters generalizing placed compound with
  | nil =>
    obtain rfl := List.map_eq_nil_iff.mp h
    simp
  | cons filter filters ih =>
    obtain ⟨next, placed, rfl, hnext, hplaced⟩ := List.map_eq_cons_iff.mp h
    have hcomma : next.token ≠ .comma := hnext ▸ token_ne_comma filter
    rw [List.cons_append, branchesFrom_cons hcomma, hnext, add_filter]
    exact (ih hplaced).trans (by simp)

/-- The tokens of a compound make it. -/
theorem branchesFrom_compound (hne : compound.tokens ≠ [])
    (h : placed.map Placed.token = compound.tokens) :
    branchesFrom selector ⟨steps, none, pending, last?⟩ (placed ++ rest) =
      branchesFrom selector ⟨steps, some compound, pending, last?⟩ rest := by
  obtain ⟨element, filters⟩ := compound
  cases element with
  | some name =>
    obtain ⟨next, placed, rfl, hnext, hplaced⟩ := List.map_eq_cons_iff.mp h
    rw [List.cons_append, branchesFrom_cons (by simp [hnext]), hnext]
    exact branchesFrom_filters hplaced
  | none =>
    cases filters with
    | nil => exact absurd rfl hne
    | cons filter filters =>
      obtain ⟨next, placed, rfl, hnext, hplaced⟩ := List.map_eq_cons_iff.mp h
      have hcomma : next.token ≠ .comma := hnext ▸ token_ne_comma filter
      rw [List.cons_append, branchesFrom_cons hcomma, hnext, add_filter]
      exact branchesFrom_filters hplaced

/-- The tokens of the further steps of a branch make them. -/
theorem branchesFrom_steps (hne : ∀ step ∈ more, step.2.tokens ≠ [])
    (h : placed.map Placed.token = stepTokens more) : ∃ steps' pending' compound' last?',
      steps' ++ [(pending', compound')] = steps ++ (pending, compound) :: more ∧
      ∀ rest, branchesFrom selector ⟨steps, some compound, pending, last?⟩ (placed ++ rest) =
        branchesFrom selector ⟨steps', some compound', pending', last?'⟩ rest := by
  induction more generalizing placed steps pending compound last? with
  | nil =>
    obtain rfl := List.map_eq_nil_iff.mp h
    exact ⟨steps, pending, compound, last?, rfl, fun _ => rfl⟩
  | cons step more ih =>
    obtain ⟨combinator, next⟩ := step
    obtain ⟨hfirst, hrest⟩ := List.forall_mem_cons.mp hne
    have htokens : stepTokens ((combinator, next) :: more) =
        combinator.token :: (next.tokens ++ stepTokens more) := by simp [stepTokens]
    rw [htokens] at h
    obtain ⟨sign, placed, rfl, hsign, hplaced⟩ := List.map_eq_cons_iff.mp h
    obtain ⟨before, after, rfl, hbefore, hafter⟩ := List.map_eq_append_iff.mp hplaced
    obtain ⟨steps', pending', compound', last?', hsteps, hread⟩ := @ih after
      (steps ++ [(pending, compound)]) next combinator (some sign.offset) hrest hafter
    refine ⟨steps', pending', compound', last?', by rw [hsteps]; simp, fun rest => ?_⟩
    have hcombinator : (Draft.mk steps (some compound) pending last?).add selector sign.offset
        combinator.token =
        .ok ⟨steps ++ [(pending, compound)], none, combinator, some sign.offset⟩ := by
      cases combinator <;> rfl
    have hcomma : sign.token ≠ .comma := by
      rw [hsign]
      cases combinator <;> simp [Combinator.token]
    rw [List.cons_append, branchesFrom_cons hcomma, hsign, hcombinator, List.append_assoc]
    exact (branchesFrom_compound hfirst hbefore).trans (hread rest)

/-- The tokens of a branch make it. -/
theorem branchesFrom_branch (hg : branch.Grouped)
    (h : placed.map Placed.token = branch.tokens) : ∃ draft : Draft,
      (∀ offset, draft.finish selector offset = .ok branch) ∧
      ∀ rest, branchesFrom selector {} (placed ++ rest) = branchesFrom selector draft rest := by
  obtain ⟨compound, more, rfl⟩ := hg.first
  obtain ⟨hfirst, hrest⟩ := List.forall_mem_cons.mp hg.compounds
  have htokens : Branch.tokens ((.descendant, compound) :: more) =
      compound.tokens ++ stepTokens more := by simp [Branch.tokens, stepTokens]
  rw [htokens] at h
  obtain ⟨before, after, rfl, hbefore, hafter⟩ := List.map_eq_append_iff.mp h
  obtain ⟨steps, pending, last, last?, hsteps, hread⟩ :=
    @branchesFrom_steps selector after [] more compound .descendant none hrest hafter
  refine ⟨⟨steps, some last, pending, last?⟩, fun offset => ?_, fun rest => ?_⟩
  · simp only [Draft.finish, hsteps, List.nil_append]
  · rw [List.append_assoc]
    exact (branchesFrom_compound hfirst hbefore).trans (hread rest)

/-- Tokens are grouped into the branches that they are the tokens of. -/
theorem branches_iff_spells : branches selector placed = .ok found ↔
    Spells found (placed.map Placed.token) := by
  refine ⟨spells_branches, fun h => ?_⟩
  obtain ⟨hne, hgrouped, htokens⟩ := h
  unfold branches
  induction found generalizing placed with
  | nil => exact absurd rfl hne
  | cons first more ih =>
    obtain ⟨hfirst, hrest⟩ := List.forall_mem_cons.mp hgrouped
    by_cases hmore : more = []
    · subst hmore
      rw [List.map_singleton, List.intercalate_singleton] at htokens
      obtain ⟨draft, hfinish, hread⟩ := branchesFrom_branch hfirst htokens
      have hnil := hread []
      rw [List.append_nil] at hnil
      rw [hnil, branchesFrom, hfinish]
      rfl
    · rw [List.map_cons, List.intercalate_cons_of_ne_nil (by simpa using hmore),
        List.append_assoc] at htokens
      obtain ⟨before, behind, rfl, hbefore, hbehind⟩ := List.map_eq_append_iff.mp htokens
      obtain ⟨comma, after, rfl, hcomma, hafter⟩ := List.map_eq_cons_iff.mp hbehind
      obtain ⟨draft, hfinish, hread⟩ := branchesFrom_branch hfirst hbefore
      obtain ⟨token, offset⟩ := comma
      obtain rfl : token = .comma := hcomma
      rw [hread, branchesFrom, hfinish, ih hmore hrest hafter]
      rfl

/-- The branches of two lists stand for their tokens with a comma between them. -/
theorem Spells.append {found' : List Branch} {tokens tokens' : List Token}
    (h : Spells found tokens) (h' : Spells found' tokens') :
    Spells (found ++ found') (tokens ++ .comma :: tokens') := by
  obtain ⟨hne, hgrouped, htokens⟩ := h
  induction found generalizing tokens with
  | nil => exact absurd rfl hne
  | cons first more ih =>
    obtain ⟨hfirst, hrest⟩ := List.forall_mem_cons.mp hgrouped
    by_cases hmore : more = []
    · subst hmore
      rw [List.map_singleton, List.intercalate_singleton] at htokens
      exact htokens ▸ h'.cons hfirst
    · rw [List.map_cons, List.intercalate_cons_of_ne_nil (by simpa using hmore)] at htokens
      have hlonger := (ih hmore hrest rfl).cons hfirst
      rw [htokens, List.append_assoc, List.append_assoc]
      exact hlonger

end Converse

theorem mem_intercalate {α : Type} {between part : List α} {parts : List (List α)} {a : α}
    (hp : part ∈ parts) (ha : a ∈ part) : a ∈ between.intercalate parts := by
  induction parts with
  | nil => simp at hp
  | cons first parts ih =>
    by_cases hne : parts = []
    · subst hne
      obtain rfl := List.mem_singleton.mp hp
      simpa using ha
    · rw [List.intercalate_cons_of_ne_nil hne, List.append_assoc, List.mem_append]
      rcases List.mem_cons.mp hp with rfl | hp
      · exact .inl ha
      · exact .inr (List.mem_append_right _ (ih hp))

/-- The tokens of a compound are among those of the selector. -/
theorem Spells.subset {found : List Branch} {tokens : List Token} (h : Spells found tokens)
    (hb : branch ∈ found) {step : Combinator × Compound} (hs : step ∈ branch) :
    step.2.tokens ⊆ tokens := by
  intro token ht
  rw [h.tokens_eq]
  refine mem_intercalate (List.mem_map_of_mem hb) ?_
  obtain ⟨compound, rest, rfl⟩ := (h.grouped branch hb).first
  simp only [Branch.tokens, stepTokens, List.flatMap_cons, List.cons_append, List.tail_cons,
    List.mem_append, List.mem_flatMap]
  rcases List.mem_cons.mp hs with rfl | hs
  · exact .inl ht
  · exact .inr ⟨step, hs, List.mem_cons_of_mem _ ht⟩

theorem Spells.element {found : List Branch} {tokens : List Token} (h : Spells found tokens)
    (hb : branch ∈ found) {step : Combinator × Compound} (hs : step ∈ branch) {name : Name}
    (hname : name ∈ step.2.element) : .element name ∈ tokens := by
  refine h.subset hb hs (List.mem_append_left _ ?_)
  rw [Option.mem_def.mp hname]
  exact List.mem_singleton_self _

theorem Spells.filter {found : List Branch} {tokens : List Token} (h : Spells found tokens)
    (hb : branch ∈ found) {step : Combinator × Compound} (hs : step ∈ branch) {filter : Filter}
    (hfilter : filter ∈ step.2.filters) : filter.token ∈ tokens :=
  h.subset hb hs (List.mem_append_right _ (List.mem_map_of_mem hfilter))

end MarkupQuery.Selector
