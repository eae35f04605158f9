import MarkupQuery.Proofs.Query.Steps
import MarkupQuery.Proofs.Query.Trimming
import MarkupQuery.Selector.Scan

namespace MarkupQuery.Selector

open MarkupQuery.Text MarkupQuery.Query

variable {s t rest : List Char} {word : String} {name : Name} {token : Token}

def IsWord (word : String) : Prop :=
  ∃ c cs, word.toList = c :: cs ∧ isNameStart c = true ∧ ∀ x ∈ cs, isNameChar x = true

structure Name.Scanned (name : Name) : Prop where
  qualifier : ∀ qualifier ∈ name.qualifier, qualifier = "*" ∨ IsWord qualifier
  localName : name.localName = "*" ∨ IsWord name.localName

def Token.Scanned : Token → Prop
  | .element name | .attribute name _ _ => name.Scanned
  | _ => True

structure Left (rest s : List Char) : Prop where
  suffix : rest <:+ s
  shorter : rest.length < s.length

theorem Left.trans (h : Left rest t) (ht : t <:+ s) : Left rest s :=
  ⟨h.suffix.trans ht, Nat.lt_of_lt_of_le h.shorter ht.length_le⟩

theorem left_of_cons {c : Char} (h : rest <:+ s) : Left rest (c :: s) :=
  ⟨h.trans (List.suffix_cons c s), Nat.lt_succ_of_le h.length_le⟩

theorem skipSpace_suffix (s : List Char) : skipSpace s <:+ s := List.dropWhile_suffix _

theorem identifier_eq_some (h : identifier? s = some (word, rest)) :
    IsWord word ∧ s = word.toList ++ rest := by
  cases s with
  | nil => cases h
  | cons c s =>
    rw [identifier?] at h
    split at h
    · rename_i hc
      obtain ⟨rfl, rfl⟩ := Prod.mk.inj (Option.some.inj h)
      refine ⟨⟨c, s.takeWhile isNameChar, by simp, hc, fun x => List.mem_takeWhile_imp⟩, ?_⟩
      simp
    · cases h

theorem nameOrStar_eq_some (h : nameOrStar? s = some (word, rest)) :
    (word = "*" ∨ IsWord word) ∧ s = word.toList ++ rest := by
  unfold nameOrStar? at h
  split at h
  · obtain ⟨rfl, rfl⟩ := Prod.mk.inj (Option.some.inj h)
    exact ⟨.inl rfl, rfl⟩
  · obtain ⟨hword, hs⟩ := identifier_eq_some h
    exact ⟨.inr hword, hs⟩

theorem ne_nil_of_word (h : word = "*" ∨ IsWord word) : word.toList ≠ [] := by
  rcases h with rfl | ⟨c, cs, hword, -⟩
  · decide
  · simp [hword]

theorem left_of_word (h : word = "*" ∨ IsWord word) (rest : List Char) :
    Left rest (word.toList ++ rest) := by
  have hlength := List.length_pos_iff.mpr (ne_nil_of_word h)
  exact ⟨List.suffix_append _ _, by simpa using hlength⟩

theorem qualifiedName_eq_some (h : qualifiedName? s = some (name, rest)) :
    name.Scanned ∧ ∃ before, s = before ++ (name.localName.toList ++ rest) := by
  unfold qualifiedName? at h
  obtain ⟨⟨first, after⟩, hfirst, hread⟩ := Option.bind_eq_some_iff.mp h
  obtain ⟨hword, rfl⟩ := nameOrStar_eq_some hfirst
  clear h
  dsimp only at hread
  split at hread
  · split at hread
    · rename_i hsecond
      obtain ⟨rfl, rfl⟩ := Prod.mk.inj (Option.some.inj hread)
      obtain ⟨hlocal, rfl⟩ := nameOrStar_eq_some hsecond
      exact ⟨⟨by simpa using hword, hlocal⟩, first.toList ++ ['|'], by simp⟩
    · obtain ⟨rfl, rfl⟩ := Prod.mk.inj (Option.some.inj hread)
      exact ⟨⟨by simp, hword⟩, [], rfl⟩
  · obtain ⟨rfl, rfl⟩ := Prod.mk.inj (Option.some.inj hread)
    exact ⟨⟨by simp, hword⟩, [], rfl⟩

theorem left_of_qualifiedName (h : qualifiedName? s = some (name, rest)) : Left rest s := by
  obtain ⟨hscanned, before, rfl⟩ := qualifiedName_eq_some h
  exact (left_of_word hscanned.localName rest).trans (List.suffix_append _ _)

theorem left_of_quoted {quote : Char} {value : String} (h : quoted? quote s = some (value, rest)) :
    rest <:+ s := by
  unfold quoted? at h
  split at h
  · cases h
  · rename_i c after hafter
    obtain ⟨-, rfl⟩ := Prod.mk.inj (Option.some.inj h)
    exact (List.suffix_cons c after).trans (hafter ▸ List.dropWhile_suffix _)

theorem left_of_attributeValue {value : String} (h : attributeValue? s = some (value, rest)) :
    rest <:+ s := by
  unfold attributeValue? at h
  split at h
  · exact (left_of_quoted h).trans (List.suffix_cons _ _)
  · exact (left_of_quoted h).trans (List.suffix_cons _ _)
  · obtain ⟨-, rfl⟩ := identifier_eq_some h
    exact List.suffix_append _ _

theorem left_of_comparison {comparison : Comparison} (h : comparison? s = some (comparison, rest)) :
    rest <:+ s := by
  unfold comparison? at h
  split at h <;> cases h
  · exact List.suffix_cons _ _
  · exact (List.suffix_cons _ _).trans (List.suffix_cons _ _)
  · exact (List.suffix_cons _ _).trans (List.suffix_cons _ _)

theorem attributeTest_eq_some (h : attributeTest? s = some (token, rest)) :
    rest <:+ s ∧ ∃ name comparison value, name.Scanned ∧
      token = .attribute name comparison value := by
  unfold attributeTest? at h
  obtain ⟨⟨name, first⟩, hname, h⟩ := Option.bind_eq_some_iff.mp h
  obtain ⟨⟨comparison, second⟩, hcomparison, h⟩ := Option.bind_eq_some_iff.mp h
  obtain ⟨⟨value, third⟩, hvalue, h⟩ := Option.bind_eq_some_iff.mp h
  dsimp only at h hcomparison hvalue
  split at h
  · rename_i after hafter
    obtain ⟨rfl, rfl⟩ := Prod.mk.inj (Option.some.inj h)
    refine ⟨?_, name, comparison, value, (qualifiedName_eq_some hname).1, rfl⟩
    have hthird := (List.suffix_cons ']' after).trans (hafter ▸ skipSpace_suffix third)
    have hsecond := (hthird.trans (left_of_attributeValue hvalue)).trans (skipSpace_suffix second)
    have hfirst := (hsecond.trans (left_of_comparison hcomparison)).trans (skipSpace_suffix first)
    exact (hfirst.trans (left_of_qualifiedName hname).suffix).trans (skipSpace_suffix s)
  · cases h

structure Reads (s : List Char) (token : Token) (rest : List Char) : Prop where
  left : Left rest s
  scanned : token.Scanned
  ends : ∀ name, token = .element name → ∃ before, s = before ++ (name.localName.toList ++ rest)

theorem simpleToken_eq_some (h : simpleToken? s = some (token, rest)) : Reads s token rest := by
  unfold simpleToken? at h
  split at h
  · obtain ⟨⟨word, after⟩, hword, he⟩ := Option.map_eq_some_iff.mp h
    obtain ⟨rfl, rfl⟩ := Prod.mk.inj he
    obtain ⟨-, rfl⟩ := identifier_eq_some hword
    exact ⟨left_of_cons (List.suffix_append _ _), trivial, by simp⟩
  · obtain ⟨⟨word, after⟩, hword, he⟩ := Option.map_eq_some_iff.mp h
    obtain ⟨rfl, rfl⟩ := Prod.mk.inj he
    obtain ⟨-, rfl⟩ := identifier_eq_some hword
    exact ⟨left_of_cons (List.suffix_append _ _), trivial, by simp⟩
  · obtain ⟨hsuffix, name, comparison, value, hscanned, rfl⟩ := attributeTest_eq_some h
    exact ⟨left_of_cons hsuffix, hscanned, by simp⟩
  · obtain ⟨⟨name, after⟩, hname, he⟩ := Option.map_eq_some_iff.mp h
    obtain ⟨rfl, rfl⟩ := Prod.mk.inj he
    obtain ⟨hscanned, hbefore⟩ := qualifiedName_eq_some hname
    refine ⟨left_of_qualifiedName hname, hscanned, ?_⟩
    rintro name ⟨⟩
    exact hbefore

theorem token_eq_some (h : token? s = some (token, rest)) : Reads s token rest := by
  unfold token? at h
  split at h
  · rename_i cs hcs
    obtain ⟨rfl, rfl⟩ := Prod.mk.inj (Option.some.inj h)
    have hleft : Left (skipSpace cs) (skipSpace s) := hcs ▸ left_of_cons (skipSpace_suffix cs)
    exact ⟨hleft.trans (skipSpace_suffix s), trivial, by simp⟩
  · rename_i cs hcs
    obtain ⟨rfl, rfl⟩ := Prod.mk.inj (Option.some.inj h)
    have hleft : Left (skipSpace cs) (skipSpace s) := hcs ▸ left_of_cons (skipSpace_suffix cs)
    exact ⟨hleft.trans (skipSpace_suffix s), trivial, by simp⟩
  · split at h
    · rename_i hshorter
      obtain ⟨rfl, rfl⟩ := Prod.mk.inj (Option.some.inj h)
      exact ⟨⟨skipSpace_suffix s, hshorter⟩, trivial, by simp⟩
    · exact simpleToken_eq_some h

/-- The tokens of a text, and the name of the element that it ends with, if it does. -/
theorem tokensFrom_ok {selector : String} {fuel offset : Nat} {placed : List Placed}
    (hfuel : s.length ≤ fuel) (h : tokensFrom selector fuel offset s = .ok placed) :
    (∀ next ∈ placed, next.token.Scanned) ∧ (s ≠ [] → placed ≠ []) ∧
      ∀ next ∈ placed.getLast?, ∀ name, next.token = .element name →
        s.getLast? = name.localName.toList.getLast? := by
  induction fuel generalizing s offset placed with
  | zero =>
    obtain rfl := List.length_eq_zero_iff.mp (Nat.le_zero.mp hfuel)
    obtain rfl := Except.ok.inj h
    simp
  | succ fuel ih =>
    cases s with
    | nil =>
      obtain rfl := Except.ok.inj h
      simp
    | cons c s =>
      rw [tokensFrom] at h
      split at h
      · cases h
      · rename_i token rest htoken
        split at h
        · cases h
        · simp only [bind_eq_ok, pure, Except.pure, Except.ok.injEq] at h
          obtain ⟨tokens, htokens, rfl⟩ := h
          obtain ⟨⟨hsuffix, hshorter⟩, hscanned, hends⟩ := token_eq_some htoken
          obtain ⟨hall, hne, hlast⟩ := ih (by simp at hshorter hfuel; omega) htokens
          refine ⟨List.forall_mem_cons.mpr ⟨hscanned, hall⟩, by simp, ?_⟩
          intro next hnext name hname
          -- the last token ends the text, and any other leaves a rest that does
          by_cases hrest : rest = []
          · subst hrest
            obtain rfl : tokens = [] := by
              cases fuel <;> exact (Except.ok.inj htokens).symm
            obtain rfl := Option.some.inj hnext
            obtain ⟨before, hs⟩ := hends name hname
            subst hname
            rw [hs, List.append_nil, List.getLast?_append_of_ne_nil]
            exact ne_nil_of_word hscanned.localName
          · obtain ⟨before, hs⟩ := hsuffix
            rw [← hs, List.getLast?_append_of_ne_nil _ hrest]
            obtain ⟨first, more, rfl⟩ := List.exists_cons_of_ne_nil (hne hrest)
            rw [List.getLast?_cons_cons] at hnext
            exact hlast next hnext name hname

/-- Blanks at the end of a selector are no part of its last name. -/
theorem tokenize_ok {selector : String} {placed : List Placed}
    (h : tokenize selector = .ok placed) :
    (∀ next ∈ placed, next.token.Scanned) ∧
      ∀ next ∈ placed.getLast?, ∀ name, next.token = .element name →
        ∀ x ∈ name.localName.toList.getLast?, isBlank x = false := by
  obtain ⟨hscanned, -, hlast⟩ := tokensFrom_ok (Nat.le_refl _) h
  refine ⟨hscanned, fun next hnext name hname x hx => ?_⟩
  rw [← hlast next hnext name hname] at hx
  obtain ⟨-, -, -, htrimmed⟩ := exists_trimEnd selector.toList
  refine htrimmed x ?_
  obtain ⟨before, hbefore⟩ : trimStart (trimEnd selector.toList) <:+ trimEnd selector.toList :=
    List.dropWhile_suffix _
  have hne : trimStart (trimEnd selector.toList) ≠ [] := by
    intro hnil
    rw [hnil] at hx
    cases hx
  rw [← hbefore, List.getLast?_append_of_ne_nil _ hne]
  exact hx

end MarkupQuery.Selector
