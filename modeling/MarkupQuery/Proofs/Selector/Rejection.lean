import MarkupQuery.Proofs.Query.Misreading
import MarkupQuery.Proofs.Selector.Emission
import MarkupQuery.Proofs.Selector.Grouping
import MarkupQuery.Proofs.Selector.Scanning

namespace MarkupQuery.Selector

open MarkupQuery.Text MarkupQuery.Query

variable {word : String} {name : Name} {filter : Filter} {compound : Compound}
  {branch : Branch}

theorem IsWord.nearName (h : IsWord word) : IsNearName word := by
  obtain ⟨c, cs, hword, hc, hcs⟩ := h
  refine ⟨c, cs, hword, ?_, fun x hx => ?_⟩
  · simpa [isNameStart, Query.isNameStart, or_assoc] using hc
  · have hchar := hcs x hx
    simp only [isNameChar, Bool.or_eq_true, decide_eq_true_eq] at hchar
    simp only [Query.isNameChar, Bool.or_eq_true]
    exact hchar.imp_left .inl

/-- A name that the scanner read, but that is no name of a query. -/
theorem misread_emit (hs : name.Scanned) (hn : ¬ name.Readable) : Misread name.emit := by
  obtain ⟨qualifier, localName⟩ := name
  obtain ⟨hqualifier, hlocal⟩ := hs
  dsimp only at hqualifier hlocal
  cases qualifier with
  | none =>
    have hword : IsWord localName := by
      refine hlocal.resolve_left fun hstar => hn ⟨by simp, .inl hstar⟩
    exact hword.nearName.misread fun hplain => hn ⟨by simp, .inr hplain⟩
  | some qualifier =>
    have hemit : Name.emit ⟨some qualifier, localName⟩ =
        qualifier.toList ++ ':' :: localName.toList := rfl
    rw [hemit]
    rcases hqualifier qualifier rfl with rfl | hword
    · exact misread_of_star localName.toList
    · by_cases hplain : IsPlain qualifier
      · have hreadable : ∀ q ∈ some qualifier, IsPlain q := by
          rintro q ⟨⟩
          exact hplain
        have hwordLocal : IsWord localName :=
          hlocal.resolve_left fun hstar => hn ⟨hreadable, .inl hstar⟩
        exact hwordLocal.nearName.misread_qualified hplain fun hp => hn ⟨hreadable, .inr hp⟩
      · exact (hword.nearName.misread hplain).append _

def Filter.Scanned : Filter → Prop
  | .id _ | .className _ => True
  | .attribute name _ _ => name.Scanned

structure Compound.Scanned (compound : Compound) : Prop where
  element : ∀ name ∈ compound.element, name.Scanned
  filters : ∀ filter ∈ compound.filters, filter.Scanned

theorem callName_contains : CallName "contains" :=
  ⟨isPlain_contains, fun _ => rfl, fun _ => rfl⟩

theorem callName_concat : CallName "concat" := ⟨isPlain_concat, fun _ => rfl, fun _ => rfl⟩

theorem callName_normalizeSpace : CallName "normalize-space" :=
  ⟨isPlain_normalizeSpace, fun _ => rfl, fun _ => rfl⟩

theorem broken_wordTest {text : List Char} (h : Misread text) (word : List Char) :
    Broken (wordTest ('@' :: text) word) := by
  have hholder := broken_callText callName_normalizeSpace .nil h.broken []
  have hwords := broken_callText callName_concat (.cons argument_space.item .nil) hholder
    [['\'', ' ', '\'']]
  rw [wordTest_eq]
  exact broken_callText callName_contains .nil hwords [literal (' ' :: word ++ [' '])]

/-- A filter with a name that is misread breaks the predicate that it is emitted as. -/
theorem broken_filter (hs : filter.Scanned) (hn : ¬ filter.Legible) : Broken filter.emit := by
  cases filter with
  | id _ | className _ => exact absurd trivial hn
  | «attribute» name comparison value =>
    have hname := misread_emit hs hn
    cases comparison with
    | equals => exact hname.broken.append ('=' :: literal value.toList)
    | includes => exact broken_wordTest hname value.toList
    | contains =>
      rw [containsTest_eq]
      exact broken_callText callName_contains .nil hname.broken [literal value.toList]

def emitFilters (filters : List Filter) : List Char :=
  filters.flatMap fun filter => '[' :: filter.emit ++ [']']

/-- The predicates stall at the first filter with a name that is misread. -/
theorem stalls_filters {filters : List Filter} (hs : ∀ filter ∈ filters, filter.Scanned)
    (hn : ¬ ∀ filter ∈ filters, filter.Legible) (t : List Char) :
    Stalls (.many (predicate expression)) (emitFilters filters ++ t) := by
  induction filters with
  | nil => exact absurd (by simp) hn
  | cons filter filters ih =>
    obtain ⟨hfirst, hrest⟩ := List.forall_mem_cons.mp hs
    have hcons : emitFilters (filter :: filters) ++ t =
        '[' :: filter.emit ++ ']' :: (emitFilters filters ++ t) := by simp [emitFilters]
    rw [hcons]
    by_cases hlegible : filter.Legible
    · have hmore : ¬ ∀ filter ∈ filters, filter.Legible := fun hall =>
        hn (List.forall_mem_cons.mpr ⟨hlegible, hall⟩)
      have hskip : skipSpace (emitFilters filters ++ t) = emitFilters filters ++ t := by
        cases filters with
        | nil => exact absurd (by simp) hmore
        | cons second filters => rfl
      intro found r hread
      rw [strict_predicate.many_of_some (predicate_of_inner (inner_filter hlegible) _), hskip] at hread
      obtain ⟨⟨more, u⟩, hothers, he⟩ := Option.map_eq_some_iff.mp hread
      obtain ⟨-, rfl⟩ := Prod.mk.inj he
      exact ih hrest hmore more u hothers
    · have hnone := predicate_of_broken (broken_filter hfirst hlegible)
        (']' :: (emitFilters filters ++ t))
      intro found r hread
      rw [List.cons_append, many_of_none hnone] at hread
      obtain ⟨-, rfl⟩ := Prod.mk.inj (Option.some.inj hread)
      exact stuck_of_bracket hnone

/-- The step that a compound with a name that is misread is emitted as. -/
theorem stalls_compound (hs : compound.Scanned) (hn : ¬ compound.Legible) (t : List Char) :
    Stalls (step expression) (compound.emit ++ t) := by
  obtain ⟨element, filters⟩ := compound
  by_cases hlegible : ∀ name ∈ element, name.Readable
  · have hfilters : ¬ ∀ filter ∈ filters, filter.Legible := fun hall => hn ⟨hlegible, hall⟩
    have hstalls := stalls_filters hs.filters hfilters t
    obtain ⟨text, test, htext, hemit⟩ : ∃ text test, TestText text test ∧
        Compound.emit ⟨element, filters⟩ ++ t = text ++ (emitFilters filters ++ t) := by
      cases element with
      | none => exact ⟨['*'], .any, testText_any, by simp [Compound.emit, emitFilters]⟩
      | some name =>
        exact ⟨name.emit, name.test, testText_emit (hlegible name rfl),
          by simp [Compound.emit, emitFilters]⟩
    obtain ⟨s, hbracket⟩ : ∃ s, emitFilters filters ++ t = '[' :: s := by
      cases filters with
      | nil => exact absurd (by simp) hfilters
      | cons filter filters => exact ⟨_, rfl⟩
    have hhead : stepHead (text ++ (emitFilters filters ++ t)) =
        some ((.child, test), emitFilters filters ++ t) := by
      rw [hbracket]
      exact htext.stepHead (follows_cons (.inl rfl) s) (by simp)
    rw [hemit]
    refine Stalls.map (fun found r hread => ?_) _
    obtain ⟨u, hfound, hmany⟩ := both_eq_some.mp (show _ = some ((found.1, found.2), r) from hread)
    rw [hhead] at hfound
    obtain ⟨-, rfl⟩ := Prod.mk.inj (Option.some.inj hfound)
    exact hstalls _ r hmany
  · cases element with
    | none => exact absurd (by simp) hlegible
    | some name =>
      have hname : ¬ name.Readable := fun hreadable => hlegible (by rintro _ ⟨⟩; exact hreadable)
      have hemit : Compound.emit ⟨some name, filters⟩ ++ t =
          name.emit ++ (emitFilters filters ++ t) := by simp [Compound.emit, emitFilters]
      rw [hemit]
      exact (misread_emit (hs.element name rfl) hname).step _

theorem head_word_ne_slash (h : word = "*" ∨ IsWord word) : word.toList.head? ≠ some '/' := by
  rcases h with rfl | ⟨c, cs, hword, hc, -⟩
  · decide
  · rw [hword]
    rintro ⟨⟩
    exact absurd hc (by decide)

theorem head_emit_ne_slash (hs : compound.Scanned) (t : List Char) :
    (compound.emit ++ t).head? ≠ some '/' := by
  obtain ⟨element, filters⟩ := compound
  cases element with
  | none => simp [Compound.emit]
  | some name =>
    obtain ⟨qualifier, localName⟩ := name
    obtain ⟨hqualifier, hlocal⟩ := hs.element _ rfl
    cases qualifier with
    | none =>
      have hne := ne_nil_of_word hlocal
      simpa [Compound.emit, Name.emit, List.head?_append_of_ne_nil _ hne] using
        head_word_ne_slash hlocal
    | some qualifier =>
      have hword := hqualifier qualifier rfl
      have hne := ne_nil_of_word hword
      simpa [Compound.emit, Name.emit, List.head?_append_of_ne_nil _ hne] using
        head_word_ne_slash hword

def Branch.Scanned (branch : Branch) : Prop := ∀ step ∈ branch, step.2.Scanned

/-- The steps of a branch stall at the first compound with a name that is misread. -/
theorem stalls_steps (hs : branch.Scanned) (hn : ¬ branch.Legible) (t : List Char) :
    Stalls (slashSteps expression) (emitSteps branch ++ t) := by
  induction branch with
  | nil => exact absurd (by simp [Branch.Legible]) hn
  | cons step branch ih =>
    obtain ⟨combinator, compound⟩ := step
    obtain ⟨hfirst, hrest⟩ := List.forall_mem_cons.mp hs
    have hcons : emitSteps ((combinator, compound) :: branch) ++ t =
        combinator.emit ++ compound.emit ++ (emitSteps branch ++ t) := by simp [emitSteps]
    rw [hcons]
    by_cases hlegible : compound.Legible
    · have hmore : ¬ Branch.Legible branch := fun hall =>
        hn (List.forall_mem_cons.mpr ⟨hlegible, hall⟩)
      have hne : branch ≠ [] := by
        rintro rfl
        exact hmore (by simp [Branch.Legible])
      have hslash : (emitSteps branch ++ t).head? = some '/' := by
        rw [List.head?_append, head_emitSteps hne]
        rfl
      exact .slashSteps_append (slashSteps_compound hlegible combinator) hslash (ih hrest hmore)
    · have hstep := stalls_compound hfirst hlegible (emitSteps branch ++ t)
      have hslash := head_emit_ne_slash hfirst (emitSteps branch ++ t)
      rw [List.append_assoc]
      cases combinator with
      | child => exact stalls_slashSteps rfl (stalls_slashStep_of_one hslash hstep)
      | descendant => exact stalls_slashSteps rfl (stalls_slashStep_of_two hstep)

/-- The path that a branch is emitted as stalls where its steps do. -/
theorem stalls_emitBranch (anchor : Anchor) (hg : branch.Grouped) (hs : branch.Scanned)
    (hn : ¬ branch.Legible) (t : List Char) :
    Stalls (path expression) (emitBranch anchor branch ++ t) := by
  have hsteps := stalls_steps hs hn t
  obtain ⟨compound, rest, rfl⟩ := hg.first
  cases anchor with
  | document => exact stalls_path_of_two hsteps
  | context => exact stalls_path_of_point rfl hsteps

theorem begins_emitBranch (anchor : Anchor) (hg : branch.Grouped) :
    Begins (emitBranch anchor branch) := by
  obtain ⟨compound, rest, rfl⟩ := hg.first
  cases anchor with
  | document => exact .inl rfl
  | context => exact .inr rfl

theorem begins_joined_branches (anchor : Anchor) {found : List Branch} (hne : found ≠ [])
    (hg : ∀ branch ∈ found, branch.Grouped) :
    Begins (joinWith [' ', '|', ' '] (found.map (emitBranch anchor))) := by
  obtain ⟨first, more, rfl⟩ := List.exists_cons_of_ne_nil hne
  rw [List.map_cons, joinWith_eq_flatMap]
  exact begins_append (begins_emitBranch anchor (hg first (List.mem_cons_self ..))) _

/-- The union of branches stalls at the first one with a name that is misread. -/
theorem stalls_joined (anchor : Anchor) {found : List Branch}
    (hg : ∀ branch ∈ found, branch.Grouped) (hs : ∀ branch ∈ found, branch.Scanned)
    (hn : ¬ ∀ branch ∈ found, branch.Legible) :
    Stalls (.both (path expression) (.many barred))
      (joinWith [' ', '|', ' '] (found.map (emitBranch anchor))) := by
  induction found with
  | nil => exact absurd (by simp) hn
  | cons branch found ih =>
    obtain ⟨hgrouped, hgrest⟩ := List.forall_mem_cons.mp hg
    obtain ⟨hscanned, hsrest⟩ := List.forall_mem_cons.mp hs
    -- the first branch that is not legible stalls, behind those that are read
    by_cases hlegible : branch.Legible
    · have hmore : ¬ ∀ branch ∈ found, branch.Legible := fun hall =>
        hn (List.forall_mem_cons.mpr ⟨hlegible, hall⟩)
      have hne : found ≠ [] := by
        rintro rfl
        exact hmore (by simp)
      have hbegins := begins_joined_branches anchor hne hgrest
      have hbranch : branch ≠ [] := by
        obtain ⟨compound, rest, rfl⟩ := hgrouped.first
        simp
      have hstalls := ih hgrest hsrest hmore
      rw [List.map_cons, joinWith_cons _ _ (by simpa using hne)]
      generalize joinWith [' ', '|', ' '] (found.map (emitBranch anchor)) = rest at hbegins hstalls ⊢
      have hskip : skipSpace ([' ', '|', ' '] ++ rest) = '|' :: ' ' :: rest := rfl
      obtain ⟨u, hu, hpath⟩ := (operand_branch anchor hlegible hbranch).reads _ (branchEnd_bar rest)
      have hbar : skipSpace u = '|' :: ' ' :: rest := hu.trans hskip
      rintro ⟨first, items⟩ r hread
      obtain ⟨v, hfirst, hmany⟩ := both_eq_some.mp hread
      rw [hpath] at hfirst
      obtain ⟨-, rfl⟩ := Prod.mk.inj (Option.some.inj hfirst)
      rcases strict_barred.many_iff.mp hmany with ⟨hnone, -, rfl⟩ | ⟨item, w, more, hitem, hmore, -⟩
      · exact stuck_of_bar (by rw [hbar]; rfl) hnone
      · obtain ⟨-, s, hs, hoperand⟩ := barred_iff.mp (show _ = some ((item.1, item.2), w) from hitem)
        obtain rfl := (List.cons.inj (hbar.symm.trans hs)).2
        rw [show skipSpace (' ' :: rest) = rest from skipSpace_of_begins hbegins] at hoperand
        exact hstalls _ r (both_eq_some.mpr ⟨w, hoperand, hmore⟩)
    · have hstalls : ∀ t, Stalls (.both (path expression) (.many barred))
          (emitBranch anchor branch ++ t) := fun t =>
        (stalls_emitBranch anchor hgrouped hscanned hlegible t).both_many fun _ hr => hr.noUnion
      rw [List.map_cons, joinWith_eq_flatMap]
      exact hstalls _

/-- A query with a name that is misread is read as no expression. -/
theorem expression_ne_of_misread (anchor : Anchor) {found : List Branch}
    (hg : ∀ branch ∈ found, branch.Grouped) (hs : ∀ branch ∈ found, branch.Scanned)
    (hn : ¬ ∀ branch ∈ found, branch.Legible) (e : Expr) :
    expression (joinWith [' ', '|', ' '] (found.map (emitBranch anchor))) ≠ some (e, []) := by
  intro hread
  have hne : found ≠ [] := by
    rintro rfl
    exact hn (by simp)
  have hbegins := begins_joined_branches anchor hne hg
  have hsign : (skipSpace (joinWith [' ', '|', ' '] (found.map (emitBranch anchor)))).head? ≠
      some '-' := by
    rw [skipSpace_of_begins hbegins]
    rcases hbegins with hhead | hhead <;> rw [hhead] <;> decide
  have hstalls := stalls_expression hsign (stalls_unionExpr (stalls_joined anchor hg hs hn))
  exact (hstalls e [] hread).ne_nil rfl

end MarkupQuery.Selector
