import MarkupQuery.Proofs.Query.Trimming
import MarkupQuery.Proofs.Selector.Rejection

namespace MarkupQuery.Query

open MarkupQuery.Text MarkupQuery.Page

variable {s t : List Char}

/-- A text that belongs to one branch as a whole, wherever it stands outside of quotes. -/
def Whole (s : List Char) : Prop :=
  ∀ depth t, branchesFrom (inside depth) (s ++ t) =
    (branchesFrom (inside depth) t).modifyHead (s ++ ·)

theorem whole_nil : Whole [] := by
  intro depth t
  simp only [List.nil_append]
  cases branchesFrom (inside depth) t <;> rfl

theorem Whole.append (hs : Whole s) (ht : Whole t) : Whole (s ++ t) := by
  intro depth u
  rw [List.append_assoc, hs, ht, List.modifyHead_modifyHead]
  congr 1
  funext first
  simp

theorem whole_cons {c : Char} (hc : isPlain c = true) (hbar : c ≠ '|') (hs : Whole s) :
    Whole (c :: s) := by
  intro depth t
  have hends : (inside depth).endsBranch c = false := by simp [Nesting.endsBranch, hbar]
  rw [List.cons_append, branchesFrom_cons hends, after_of_isPlain hc, hs,
    List.modifyHead_modifyHead]
  rfl

theorem whole_of_plain (hs : (s.all fun c => isPlain c && c != '|') = true) : Whole s := by
  induction s with
  | nil => exact whole_nil
  | cons c s ih =>
    simp only [List.all_cons, Bool.and_eq_true, bne_iff_ne] at hs
    obtain ⟨⟨hc, hbar⟩, hs⟩ := hs
    exact whole_cons hc hbar (ih (by simpa using hs))

/-- Inside brackets a text is part of the branch that the brackets are in. -/
theorem whole_brackets {c d : Char} (hc : c = '[' ∨ c = '(') (hd : d = ']' ∨ d = ')')
    (hs : Whole s) : Whole (c :: s ++ [d]) := by
  intro depth t
  have hopen : (inside depth).after c = inside (depth + 1) := (passes_open hc depth).1
  have hclose : (inside (depth + 1)).after d = inside depth := (passes_close hd depth).1
  have hends : (inside depth).endsBranch c = false ∧ (inside (depth + 1)).endsBranch d = false := by
    rcases hc with rfl | rfl <;> rcases hd with rfl | rfl <;> exact ⟨rfl, rfl⟩
  rw [List.cons_append, List.cons_append, branchesFrom_cons hends.1, hopen, List.append_assoc, hs,
    List.singleton_append, branchesFrom_cons hends.2, hclose, List.modifyHead_modifyHead,
    List.modifyHead_modifyHead]
  congr 1
  funext first
  simp

theorem branchesFrom_quoted {q : Char} (hs : q ∉ s) (depth : Nat) (t : List Char) :
    branchesFrom ⟨depth, some q⟩ (s ++ q :: t) =
      (branchesFrom (inside depth) t).modifyHead ((s ++ [q]) ++ ·) := by
  have hends : ∀ c, (⟨depth, some q⟩ : Nesting).endsBranch c = false := by
    simp [Nesting.endsBranch]
  induction s with
  | nil =>
    rw [List.nil_append, branchesFrom_cons (hends q)]
    simp [Nesting.after]
  | cons c s ih =>
    obtain ⟨hc, hs⟩ := not_or.mp (mt List.mem_cons.mpr hs)
    have hafter : (⟨depth, some q⟩ : Nesting).after c = ⟨depth, some q⟩ := by
      simp [Nesting.after, Ne.symm hc]
    rw [List.cons_append, branchesFrom_cons (hends c), hafter, ih hs, List.modifyHead_modifyHead]
    rfl

theorem whole_quoted {q : Char} (hq : q = '\'' ∨ q = '"') (hs : q ∉ s) :
    Whole (q :: s ++ [q]) := by
  intro depth t
  have hends : (inside depth).endsBranch q = false := by
    rcases hq with rfl | rfl <;> simp [Nesting.endsBranch]
  have hafter : (inside depth).after q = ⟨depth, some q⟩ := by
    rcases hq with rfl | rfl <;> simp [Nesting.after]
  rw [List.cons_append, List.cons_append, branchesFrom_cons hends, hafter, List.append_assoc,
    List.singleton_append, branchesFrom_quoted hs, List.modifyHead_modifyHead]
  rfl

theorem whole_joinWith {between : List Char} {texts : List (List Char)} (hb : Whole between)
    (h : ∀ text ∈ texts, Whole text) : Whole (joinWith between texts) := by
  induction texts with
  | nil => exact whole_nil
  | cons first more ih =>
    obtain ⟨hfirst, hmore⟩ := List.forall_mem_cons.mp h
    by_cases hne : more = []
    · subst hne
      simpa [joinWith] using hfirst
    · rw [joinWith_cons _ _ hne]
      exact hfirst.append (hb.append (ih hmore))

theorem whole_callText {function : String} {texts : List (List Char)}
    (hf : (function.toList.all fun c => isPlain c && c != '|') = true)
    (h : ∀ text ∈ texts, Whole text) : Whole (callText function texts) := by
  have hcomma : Whole [',', ' '] := whole_of_plain (by decide)
  have hcall := (whole_of_plain hf).append
    (whole_brackets (.inr rfl) (.inr rfl) (whole_joinWith hcomma h))
  simpa [callText] using hcall

/-- The branches of a query made of whole texts are these texts. -/
theorem branches_joinWith {texts : List (List Char)} (hne : texts ≠ [])
    (h : ∀ text ∈ texts, Whole text) :
    (branches (joinWith [' ', '|', ' '] texts)).map trim = texts.map trim := by
  induction texts with
  | nil => exact absurd rfl hne
  | cons first more ih =>
    obtain ⟨hfirst, hrest⟩ := List.forall_mem_cons.mp h
    by_cases hmore : more = []
    · subst hmore
      have hwhole := hfirst 0 []
      rw [List.append_nil] at hwhole
      simp [joinWith, branches, hwhole, branchesFrom]
    · have hspaces : ∀ x ∈ [' '], isBlank x = true := List.forall_mem_singleton.mpr rfl
      have hbar : branchesFrom (inside 0) (' ' :: '|' :: ' ' :: joinWith [' ', '|', ' '] more) =
          [' '] :: branches (' ' :: joinWith [' ', '|', ' '] more) := rfl
      have hrestBranches := branches_blanks_append hspaces (joinWith [' ', '|', ' '] more)
      rw [List.singleton_append, ih hmore hrest] at hrestBranches
      have hcut : branches (first ++ (' ' :: '|' :: ' ' :: joinWith [' ', '|', ' '] more)) =
          (first ++ [' ']) :: branches (' ' :: joinWith [' ', '|', ' '] more) := by
        rw [branches, hfirst 0, hbar]
        rfl
      rw [joinWith_cons _ _ hmore]
      simp only [List.cons_append, List.nil_append]
      rw [hcut, List.map_cons, hrestBranches, trim_append_blanks hspaces, List.map_cons]

end MarkupQuery.Query

namespace MarkupQuery.Selector

open MarkupQuery.Text MarkupQuery.Query

variable {name : Name} {filter : Filter} {compound : Compound} {branch : Branch}

theorem plain_of_isNameChar {c : Char} (hc : isNameChar c = true) : isPlain c = true ∧ c ≠ '|' := by
  have hne : ∀ d, isNameChar d = false → c ≠ d := by
    rintro d hd rfl
    simp [hc] at hd
  refine ⟨?_, hne '|' (by decide)⟩
  simp [isPlain, hne '\'' (by decide), hne '"' (by decide),
    hne '[' (by decide), hne '(' (by decide), hne ']' (by decide),
    hne ')' (by decide)]

theorem isNameChar_of_isNameStart {c : Char} (hc : isNameStart c = true) : isNameChar c = true := by
  simp only [isNameStart, Bool.or_eq_true, isNameChar, isLetterOrNumeral] at hc ⊢
  tauto

theorem whole_word {word : String} (h : word = "*" ∨ IsWord word) : Whole word.toList := by
  refine whole_of_plain (List.all_eq_true.mpr fun c hc => ?_)
  rw [Bool.and_eq_true, bne_iff_ne]
  rcases h with rfl | ⟨first, more, hword, hfirst, hmore⟩
  · obtain rfl : c = '*' := by simpa using hc
    decide
  · rw [hword] at hc
    rcases List.mem_cons.mp hc with rfl | hc
    · exact plain_of_isNameChar (isNameChar_of_isNameStart hfirst)
    · exact plain_of_isNameChar (hmore c hc)

theorem whole_name (h : name.Scanned) : Whole name.emit := by
  obtain ⟨qualifier, localName⟩ := name
  cases qualifier with
  | none => exact whole_word h.localName
  | some qualifier =>
    exact (whole_word (h.qualifier qualifier rfl)).append
      (whole_cons rfl (by decide) (whole_word h.localName))

theorem whole_literal (value : List Char) : Whole (literal value) := by
  unfold literal
  split
  · rename_i h
    exact whole_quoted (.inl rfl) (by simpa using h)
  split
  · rename_i h
    exact whole_quoted (.inr rfl) (by simpa using h)
  · rw [concat_eq]
    have hquote : Whole ['"', '\'', '"'] := whole_quoted (s := ['\'']) (.inr rfl) (by decide)
    have hparts : List.Forall₂ (fun part _ => Whole part)
        ((splitWhere (· == '\'') value).map fun part => '\'' :: part ++ ['\''])
        ((splitWhere (· == '\'') value).map fun part => '\'' :: part ++ ['\'']) := by
      refine List.forall₂_same.mpr (List.forall_mem_map.mpr fun part hpart => ?_)
      exact whole_quoted (.inl rfl) fun hmem => by simpa using not_mem_splitWhere hpart _ hmem
    have hall := forall₂_intersperse (a := ['"', '\'', '"']) (b := ['"', '\'', '"']) hparts hquote
    exact whole_callText (by decide) fun text => List.forall₂_same.mp hall text

theorem whole_wordTest {holder : List Char} (h : Whole holder) (word : List Char) :
    Whole (wordTest holder word) := by
  have hspace : Whole ['\'', ' ', '\''] := whole_quoted (s := [' ']) (.inl rfl) (by decide)
  rw [wordTest_eq]
  refine whole_callText (by decide) ?_
  simp only [List.forall_mem_cons]
  refine ⟨whole_callText (by decide) ?_, whole_literal _, by simp⟩
  simp only [List.forall_mem_cons]
  exact ⟨hspace, whole_callText (by decide) (by simpa using h), hspace, by simp⟩

theorem whole_filter (h : filter.Scanned) : Whole filter.emit := by
  cases filter with
  | id value => exact (whole_of_plain (s := "@id=".toList) (by decide)).append (whole_literal _)
  | className value => exact whole_wordTest (whole_of_plain (by decide)) _
  | «attribute» name comparison value =>
    have hname : Whole ('@' :: name.emit) := whole_cons rfl (by decide) (whole_name h)
    cases comparison with
    | equals => exact hname.append (whole_cons rfl (by decide) (whole_literal _))
    | includes => exact whole_wordTest hname _
    | contains =>
      rw [containsTest_eq]
      exact whole_callText (by decide) (by simpa using ⟨hname, whole_literal _⟩)

theorem whole_compound (h : compound.Scanned) : Whole compound.emit := by
  obtain ⟨element, filters⟩ := compound
  have hfilters : Whole (filters.flatMap fun filter => '[' :: filter.emit ++ [']']) := by
    have hall := h.filters
    clear h
    induction filters with
    | nil => exact whole_nil
    | cons filter filters ih =>
      obtain ⟨hfilter, hmore⟩ := List.forall_mem_cons.mp hall
      exact (whole_brackets (.inl rfl) (.inl rfl) (whole_filter hfilter)).append (ih hmore)
  cases element with
  | none => exact whole_cons rfl (by decide) hfilters
  | some name => exact (whole_name (h.element name rfl)).append hfilters

/-- An emitted branch is one branch of a query. -/
theorem whole_emitBranch (anchor : Anchor) (h : branch.Scanned) :
    Whole (emitBranch anchor branch) := by
  have hanchor : Whole anchor.emit := by cases anchor <;> exact whole_of_plain (by decide)
  refine hanchor.append ?_
  induction branch with
  | nil => exact whole_nil
  | cons step branch ih =>
    obtain ⟨hstep, hmore⟩ := List.forall_mem_cons.mp h
    have hcombinator : Whole step.1.emit := by
      cases step.1 <;> exact whole_of_plain (by decide)
    exact (hcombinator.append (whole_compound hstep)).append (ih hmore)

end MarkupQuery.Selector
