import MarkupQuery.Proofs.Selector.Matching
import MarkupQuery.Proofs.Selector.Rejection

namespace MarkupQuery.Selector

open MarkupQuery.Text MarkupQuery.Query

/-- The names in a selector are read in full as names of a query, and so are its prefixes; a star
stands for any name. -/
def Token.Legible : Token → Prop
  | .element name | .attribute name _ _ => name.Readable
  | _ => True

variable {anchor : Anchor} {selector : String} {compiled : Compiled} {placed : List Placed}
  {found : List Branch} {branch : Branch} {tokens : List Token} {token : Token}
  {compound : Compound}

section Tokens

theorem mem_of_mem_intercalate {α : Type} {between : List α} {parts : List (List α)} {a : α}
    (h : a ∈ between.intercalate parts) : a ∈ between ∨ ∃ part ∈ parts, a ∈ part := by
  induction parts with
  | nil => simp at h
  | cons first parts ih =>
    by_cases hne : parts = []
    · subst hne
      exact .inr ⟨first, List.mem_cons_self .., by simpa using h⟩
    · rw [List.intercalate_cons_of_ne_nil hne, List.append_assoc, List.mem_append,
        List.mem_append] at h
      rcases h with h | h | h
      · exact .inr ⟨first, List.mem_cons_self .., h⟩
      · exact .inl h
      · rcases ih h with h | ⟨part, hpart, h⟩
        · exact .inl h
        · exact .inr ⟨part, List.mem_cons_of_mem _ hpart, h⟩

/-- A token with a name belongs to a compound. -/
theorem Spells.exists_compound (h : Spells found tokens) (ht : token ∈ tokens)
    (hcomma : token ≠ .comma) (hchild : token ≠ .child) (hdescendant : token ≠ .descendant) :
    ∃ branch ∈ found, ∃ step ∈ branch, token ∈ step.2.tokens := by
  rw [h.tokens_eq] at ht
  rcases mem_of_mem_intercalate ht with ht | ⟨part, hpart, ht⟩
  · exact absurd (List.mem_singleton.mp ht) hcomma
  · obtain ⟨branch, hbranch, rfl⟩ := List.mem_map.mp hpart
    obtain ⟨step, hstep, ht⟩ := List.mem_flatMap.mp (List.mem_of_mem_tail ht)
    refine ⟨branch, hbranch, step, hstep, (List.mem_cons.mp ht).resolve_left ?_⟩
    rintro rfl
    obtain ⟨combinator, compound⟩ := step
    cases combinator with
    | child => exact hchild rfl
    | descendant => exact hdescendant rfl

theorem element_of_mem_tokens {name : Name} (h : .element name ∈ compound.tokens) :
    name ∈ compound.element := by
  rcases List.mem_append.mp h with h | h
  · obtain ⟨_, hname, ⟨⟩⟩ := Option.map_eq_some_iff.mp (Option.mem_toList.mp h)
    exact hname
  · obtain ⟨filter, -, hfilter⟩ := List.mem_map.mp h
    cases filter <;> cases hfilter

theorem filter_of_mem_tokens {name : Name} {comparison : Comparison} {value : String}
    (h : .attribute name comparison value ∈ compound.tokens) :
    .attribute name comparison value ∈ compound.filters := by
  rcases List.mem_append.mp h with h | h
  · obtain ⟨_, -, hname⟩ := Option.map_eq_some_iff.mp (Option.mem_toList.mp h)
    cases hname
  · obtain ⟨filter, hfilter, htoken⟩ := List.mem_map.mp h
    cases filter with
    | id _ | className _ => cases htoken
    | «attribute» _ _ _ =>
      cases htoken
      exact hfilter

/-- The names of the tokens are the names of the branches. -/
theorem legible_iff_of_spells (h : Spells found tokens) :
    (∀ branch ∈ found, Branch.Legible branch) ↔ ∀ token ∈ tokens, token.Legible := by
  constructor
  · intro hall token ht
    cases token with
    | element name =>
      obtain ⟨branch, hbranch, step, hstep, hmem⟩ := h.exists_compound ht (by simp) (by simp) (by simp)
      exact (hall branch hbranch step hstep).element name (element_of_mem_tokens hmem)
    | «attribute» name comparison value =>
      obtain ⟨branch, hbranch, step, hstep, hmem⟩ := h.exists_compound ht (by simp) (by simp) (by simp)
      exact (hall branch hbranch step hstep).filters _ (filter_of_mem_tokens hmem)
    | id _ | className _ | child | descendant | comma => trivial
  · intro hall branch hbranch step hstep
    refine ⟨fun name hname => hall _ (h.element hbranch hstep hname), fun filter hfilter => ?_⟩
    have hlegible := hall _ (h.filter hbranch hstep hfilter)
    cases filter <;> exact hlegible

theorem scanned_of_spells (h : Spells found tokens) (ht : ∀ token ∈ tokens, token.Scanned) :
    ∀ branch ∈ found, Branch.Scanned branch := by
  intro branch hbranch step hstep
  refine ⟨fun name hname => ht _ (h.element hbranch hstep hname), fun filter hfilter => ?_⟩
  have hscanned := ht _ (h.filter hbranch hstep hfilter)
  cases filter <;> exact hscanned

end Tokens

section Ends

theorem getLast_intercalate {α : Type} (between : List α) (parts : List (List α)) {last : List α}
    (hne : last ≠ []) : (between.intercalate (parts ++ [last])).getLast? = last.getLast? := by
  induction parts with
  | nil => simp
  | cons first parts ih =>
    have hmore : between.intercalate (parts ++ [last]) ≠ [] := by
      intro hnil
      rw [hnil, List.getLast?_nil] at ih
      exact hne (List.getLast?_eq_none_iff.mp ih.symm)
    rw [List.cons_append, List.intercalate_cons_of_ne_nil (by simp),
      List.getLast?_append_of_ne_nil _ hmore, ih]

/-- What a text and tokens end with: no blank, if the tokens end with an element whose name does
not end with one. -/
def EndsAlike (text : List Char) (tokens : List Token) : Prop :=
  (∀ name, tokens.getLast? = some (.element name) →
    ∀ x ∈ name.localName.toList.getLast?, isBlank x = false) →
  ∀ x ∈ text.getLast?, isBlank x = false

theorem emit_ends (hne : compound.tokens ≠ []) (hs : compound.Scanned) :
    compound.emit ≠ [] ∧ EndsAlike compound.emit compound.tokens := by
  obtain ⟨element, filters⟩ := compound
  rcases List.eq_nil_or_concat filters with rfl | ⟨before, last, rfl⟩
  · cases element with
    | none => exact absurd rfl hne
    | some name =>
      have hlocal := ne_nil_of_word (hs.element name rfl).localName
      have hemit : ∃ front, Compound.emit ⟨some name, []⟩ = front ++ name.localName.toList := by
        obtain ⟨qualifier, localName⟩ := name
        cases qualifier with
        | none => exact ⟨[], by simp [Compound.emit, Name.emit]⟩
        | some qualifier => exact ⟨qualifier.toList ++ [':'], by simp [Compound.emit, Name.emit]⟩
      obtain ⟨front, hfront⟩ := hemit
      rw [hfront]
      refine ⟨by simp [hlocal], fun hlast x hx => hlast name rfl x ?_⟩
      rwa [List.getLast?_append_of_ne_nil _ hlocal] at hx
  · have hemit : Compound.emit ⟨element, before.concat last⟩ =
        Compound.emit ⟨element, before⟩ ++ ('[' :: last.emit) ++ [']'] := by simp [Compound.emit]
    rw [hemit]
    refine ⟨by simp, fun _ x hx => ?_⟩
    rw [List.getLast?_concat] at hx
    obtain rfl := Option.some.inj hx
    decide

theorem emitBranch_ends (hg : branch.Grouped) (hs : branch.Scanned) (anchor : Anchor) :
    branch.tokens ≠ [] ∧ emitBranch anchor branch ≠ [] ∧
      EndsAlike (emitBranch anchor branch) branch.tokens := by
  have hne : branch ≠ [] := by
    obtain ⟨compound, rest, rfl⟩ := hg.first
    simp
  obtain ⟨before, ⟨combinator, compound⟩, rfl⟩ := (List.eq_nil_or_concat branch).resolve_left hne
  rw [List.concat_eq_append] at hg hs ⊢
  have hmem : (combinator, compound) ∈ before ++ [(combinator, compound)] := by simp
  have htokens := hg.compounds _ hmem
  obtain ⟨hemit, hends⟩ := emit_ends htokens (hs _ hmem)
  obtain ⟨front, hfront⟩ : ∃ front, Branch.tokens (before ++ [(combinator, compound)]) =
      front ++ compound.tokens := by
    cases before with
    | nil => exact ⟨[], by simp [Branch.tokens, stepTokens]⟩
    | cons first before =>
      exact ⟨first.2.tokens ++ (stepTokens before ++ [combinator.token]),
        by simp [Branch.tokens, stepTokens]⟩
  have htext : emitBranch anchor (before ++ [(combinator, compound)]) =
      emitBranch anchor before ++ combinator.emit ++ compound.emit := by simp [emitBranch]
  rw [hfront, htext, EndsAlike, List.getLast?_append_of_ne_nil _ htokens,
    List.getLast?_append_of_ne_nil _ hemit]
  exact ⟨by simp [htokens], by simp [hemit], hends⟩

/-- A query ends with a blank only if the tokens of the selector do. -/
theorem joined_ends (h : Spells found tokens) (hs : ∀ branch ∈ found, Branch.Scanned branch)
    (anchor : Anchor) :
    EndsAlike (joinWith [' ', '|', ' '] (found.map (emitBranch anchor))) tokens := by
  obtain ⟨before, last, hfound⟩ := (List.eq_nil_or_concat found).resolve_left h.ne_nil
  rw [List.concat_eq_append] at hfound
  have hlast : last ∈ found := by simp [hfound]
  obtain ⟨htokens, hemit, hends⟩ := emitBranch_ends (h.grouped last hlast) (hs last hlast) anchor
  rw [h.tokens_eq, hfound, List.map_append, List.map_append, List.map_singleton,
    List.map_singleton, joinWith, EndsAlike, getLast_intercalate _ _ htokens,
    getLast_intercalate _ _ hemit]
  exact hends

/-- The query of a selector does not end with a blank. -/
theorem emitted_ends (h : Spells found (placed.map Placed.token))
    (ht : tokenize selector = .ok placed) (anchor : Anchor) :
    ∀ x ∈ (joinWith [' ', '|', ' '] (found.map (emitBranch anchor))).getLast?,
      isBlank x = false := by
  obtain ⟨hscanned, hlast⟩ := tokenize_ok ht
  refine joined_ends h (scanned_of_spells h (by simpa using hscanned)) anchor fun name hname => ?_
  rw [List.getLast?_map] at hname
  obtain ⟨next, hnext, htoken⟩ := Option.map_eq_some_iff.mp hname
  exact hlast next hnext name htoken

end Ends

/-- A compiled selector is a query only if all its names are names of a query. -/
theorem legible_of_parse (hc : compile anchor selector = .ok compiled)
    (ht : tokenize selector = .ok placed) {e : Expr} (h : parse compiled.query = .ok e) :
    ∀ next ∈ placed, next.token.Legible := by
  obtain ⟨found, hfound, rfl⟩ := compile_ok hc ht
  have hspells := spells_branches hfound
  have hscanned := scanned_of_spells hspells (by simpa using (tokenize_ok ht).1)
  have hlegible := legible_iff_of_spells hspells
  simp only [List.forall_mem_map] at hlegible
  rw [← hlegible]
  by_contra hn
  have hbegins := begins_joined_branches anchor hspells.ne_nil hspells.grouped
  have hends := emitted_ends hspells ht anchor
  rw [parse_eq_ok, toList_query, trim, trimStart_of_head hbegins.head_not_blank,
    trimEnd_of_last hends] at h
  exact expression_ne_of_misread anchor hspells.grouped hscanned hn e h

/-- A compiled selector is a query, and so is each of its branches, if and only if all its names are
names of a query. -/
theorem accepted_iff_legible (hc : compile anchor selector = .ok compiled)
    (ht : tokenize selector = .ok placed) :
    ((∀ branch ∈ compiled.branches, ∃ e, parse branch = .ok e) ∧
        ∃ e, parse compiled.query = .ok e) ↔
      ∀ next ∈ placed, next.token.Legible := by
  refine ⟨fun ⟨_, e, hparse⟩ => legible_of_parse hc ht hparse, fun hlegible => ?_⟩
  obtain ⟨found, hfound, rfl⟩ := compile_ok hc ht
  have hspells := spells_branches hfound
  have hne : ∀ branch ∈ found, branch ≠ [] := by
    intro branch hbranch
    obtain ⟨compound, rest, rfl⟩ := (hspells.grouped branch hbranch).first
    simp
  have hall : ∀ branch ∈ found, Branch.Legible branch :=
    (legible_iff_of_spells hspells).mpr (by simpa using hlegible)
  have hread : ∀ branches : List Branch, branches ≠ [] → branches ⊆ found →
      ∃ e, parse (Compiled.query ⟨branches.map fun branch =>
        String.ofList (emitBranch anchor branch)⟩) = .ok e := by
    intro branches hnil hsubset
    obtain ⟨first, more, rfl⟩ := List.exists_cons_of_ne_nil hnil
    exact ⟨_, parse_legible anchor fun branch hbranch =>
      ⟨hall branch (hsubset hbranch), hne branch (hsubset hbranch)⟩⟩
  refine ⟨fun text htext => ?_, hread found hspells.ne_nil (List.Subset.refl _)⟩
  obtain ⟨branch, hbranch, rfl⟩ := List.mem_map.mp htext
  obtain ⟨e, he⟩ := hread [branch] (by simp) (by simpa using hbranch)
  exact ⟨e, by simpa [Compiled.query] using he⟩

/-- A name that starts with a hyphen is one of a selector, but not of a query. -/
theorem hyphen_rejected : compile .document "-a" = .ok ⟨["//-a"]⟩ ∧
    parse "//-a" = .error (.unparsed "//-a" none) := ⟨rfl, rfl⟩

/-- An element, or any element with an attribute that has a prefix. -/
theorem accepted_iff_legible_list : tokenize "a, [p|b=c]" = .ok
      [⟨.element ⟨none, "a"⟩, 0⟩, ⟨.comma, 1⟩, ⟨.attribute ⟨some "p", "b"⟩ .equals "c", 3⟩] ∧
    compile .context "a, [p|b=c]" = .ok ⟨[".//a", ".//*[@p:b='c']"]⟩ ∧
    (∃ e, parse ".//a" = .ok e) ∧ (∃ e, parse ".//*[@p:b='c']" = .ok e) ∧
    ∃ e, parse ".//a | .//*[@p:b='c']" = .ok e := by
  have ht : tokenize "a, [p|b=c]" = .ok [⟨.element ⟨none, "a"⟩, 0⟩, ⟨.comma, 1⟩,
      ⟨.attribute ⟨some "p", "b"⟩ .equals "c", 3⟩] := by decide +kernel
  have hc : compile .context "a, [p|b=c]" = .ok ⟨[".//a", ".//*[@p:b='c']"]⟩ := by decide +kernel
  have hplain : IsPlain "a" ∧ IsPlain "b" ∧ IsPlain "p" := by decide +kernel
  have haccepted := (accepted_iff_legible hc ht).mpr (by
    simp only [List.forall_mem_cons, Token.Legible]
    exact ⟨⟨by simp, .inr hplain.1⟩, trivial, ⟨by simpa using hplain.2.2, .inr hplain.2.1⟩, by simp⟩)
  obtain ⟨hbranches, hquery⟩ := haccepted
  exact ⟨ht, hc, hbranches _ (by simp), hbranches _ (by simp), hquery⟩

end MarkupQuery.Selector
