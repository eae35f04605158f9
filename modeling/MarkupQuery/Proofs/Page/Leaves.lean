import MarkupQuery.Proofs.Query.WholeBranches

namespace MarkupQuery.Page

open MarkupQuery.Text MarkupQuery.Query Reader

variable {w w' x y t r head query inner b : List Char} {ls ls' : List (List Char)}
  {bad : List Char → Prop} {setting : Setting} {focus : Focus} {depth : Nat}

/-- The leaves of a branch. `nested` gives those of what stands in parentheses. -/
def branchLeaves (nested : List Char → List (List Char)) (branch : List Char) : List (List Char) :=
  match parenthesized? branch with
  | some (inside, _) => nested inside
  | none => [branch]

def leavesUpTo : Nat → List Char → List (List Char)
  | 0, query => [query]
  | depth + 1, query => ((branches query).map trim).flatMap (branchLeaves (leavesUpTo depth))

def leaves (query : String) : List (List Char) :=
  leavesUpTo (query.toList.length + 1) query.toList

section Texts

/-- A branch ends in front of such a text: nothing comes after the spaces, or a bar, or a parenthesis
that is closed. -/
def Closed (t : List Char) : Prop := ∀ c ∈ (skipSpace t).head?, c = '|' ∨ c = ')'

theorem Closed.endsPath (h : Closed t) : EndsPath t := by
  refine ⟨fun c hc => (h c hc).imp_right (.inr ∘ .inl), fun hslash => ?_⟩
  rcases h '/' hslash with he | he <;> cases he

theorem closed_nil : Closed [] := fun _ hc => by simp [skipSpace] at hc

theorem closed_bar (s : List Char) : Closed ([' ', '|', ' '] ++ s) := fun _ hc =>
  .inl (Option.some.inj hc).symm

theorem closed_parenthesis (s : List Char) : Closed (')' :: s) := fun _ hc =>
  .inr (Option.some.inj hc).symm

def Leads (s : List Char) : Prop := s.head? = some '/' ∨ s.head? = some '('

theorem Leads.append (h : Leads w) (t : List Char) : Leads (w ++ t) := by
  rcases h with h | h <;> obtain ⟨w, rfl⟩ := List.head?_eq_some_iff.mp h
  · exact .inl rfl
  · exact .inr rfl

theorem Leads.head_not_blank (h : Leads w) : ∀ c ∈ w.head?, isBlank c = false := by
  rcases h with h | h <;> rw [h] <;> rintro _ ⟨⟩ <;> decide

theorem Leads.skipSpace (h : Leads w) : skipSpace w = w := skipSpace_of_not_blank h.head_not_blank

/-- Such a text has no sign in front. -/
theorem Leads.rest_signed (h : Leads w) : rest signed w = rest (path expression) w := by
  have hsign : Reader.spaced (.char '-') w = none := by
    refine spaced_char_of_head_ne ?_
    rw [h.skipSpace]
    rcases h with h | h <;> rw [h] <;> decide
  rw [signed, rest_blind, rest_both, rest_optional, rest_eq_none.mpr hsign]
  rfl

theorem Leads.rest_expression (h : Leads w) :
    rest expression w = (rest (path expression) w).map afterOperations := by
  rw [Query.rest_expression, h.rest_signed]

/-- Behind a bar an expression goes on, or the operations end in front of the bar. -/
theorem afterOperations_bar (h : Leads x) : afterOperations ([' ', '|', ' '] ++ x) =
    (rest expression x).getD ([' ', '|', ' '] ++ x) := by
  have hop : operatorAt 6 (skipSpace ([' ', '|', ' '] ++ x)) = some (.union, ' ' :: x) := rfl
  have hspace : skipSpace (' ' :: x) = x := h.skipSpace
  have hoperand : rest (operand 6) (skipSpace (' ' :: x)) = rest (path expression) x := by
    rw [hspace]
    exact congrFun (rest_blind _) x
  rw [h.rest_expression]
  cases hread : rest (path expression) x with
  | none =>
    have hnone := rest_operations (Nat.le_refl 6) (Nat.zero_le 6) (Nat.le_refl 6) hop
    exact exhaust_of_none (hnone.trans (hoperand.trans hread))
  | some r => exact afterOperations_of_some (Nat.le_refl 6) hop (hoperand.trans hread)

/-- A text that is read as an expression to its end where a branch may end. -/
structure Fits (w : List Char) : Prop where
  leads : Leads w
  reads : ∀ t, Closed t → ∃ r, rest expression (w ++ t) = some r ∧
    skipSpace r = skipSpace (afterOperations t)

/-- A text that is not read to its end: if an expression is read off it at all, what is left begins
neither with the end of a query nor with a parenthesis that is closed. -/
structure Sticks (w : List Char) : Prop where
  leads : Leads w
  reads : ∀ t r, Closed t → rest expression (w ++ t) = some r → ∃ c ∈ (skipSpace r).head?, c ≠ ')'

theorem Fits.bar (h : Fits w) (h' : Fits w') : Fits (w ++ ([' ', '|', ' '] ++ w')) where
  leads := h.leads.append _
  reads t ht := by
    obtain ⟨r, hr, hskip⟩ := h.reads ([' ', '|', ' '] ++ (w' ++ t)) (closed_bar _)
    obtain ⟨r', hr', hskip'⟩ := h'.reads t ht
    rw [afterOperations_bar (h'.leads.append t), hr'] at hskip
    exact ⟨r, by rw [List.append_assoc, List.append_assoc, hr], hskip.trans hskip'⟩

theorem Sticks.bar (h : Sticks w) (w' : List Char) : Sticks (w ++ ([' ', '|', ' '] ++ w')) where
  leads := h.leads.append _
  reads t r _ hr := by
    rw [List.append_assoc, List.append_assoc] at hr
    exact h.reads _ r (closed_bar _) hr

theorem Fits.bar_sticks (h : Fits w) (h' : Sticks w') :
    Sticks (w ++ ([' ', '|', ' '] ++ w')) where
  leads := h.leads.append _
  reads t r ht hr := by
    obtain ⟨u, hu, hskip⟩ := h.reads ([' ', '|', ' '] ++ (w' ++ t)) (closed_bar _)
    rw [List.append_assoc, List.append_assoc, hu] at hr
    obtain rfl := Option.some.inj hr
    rw [afterOperations_bar (h'.leads.append t)] at hskip
    rw [hskip]
    cases hread : rest expression (w' ++ t) with
    | some r => exact h'.reads t r ht hread
    | none => exact ⟨'|', rfl, by decide⟩

/-- What stands in parentheses fits if it did without them. -/
theorem Fits.group (h : Fits w) (hc : crossed (inside 0) y = some (inside 0))
    (hy : afterGroup y = []) : Fits ('(' :: w ++ ')' :: y) where
  leads := .inr rfl
  reads t ht := by
    obtain ⟨r, hr, hskip⟩ := h.reads (')' :: (y ++ t)) (closed_parenthesis _)
    rw [afterOperations_of_head rfl] at hskip
    have hclose : skipSpace r = ')' :: (y ++ t) := hskip
    have hpath : rest (path expression) ('(' :: (w ++ ')' :: (y ++ t))) =
        some (afterGroup (y ++ t)) := by
      rw [rest_path_of_parenthesis, (h.leads.append _).skipSpace, hr, Option.bind_some, hclose]
      rfl
    have hread := (show Leads ('(' :: (w ++ ')' :: (y ++ t))) from .inr rfl).rest_expression
    rw [hpath, Option.map_some] at hread
    refine ⟨_, by simpa using hread, ?_⟩
    rcases afterGroup_append hc hy ht.endsPath with he | he
    · rw [he]
    · rw [he, skipSpace_afterOperations]

theorem Sticks.group (h : Sticks w) (y : List Char) : Sticks ('(' :: w ++ ')' :: y) where
  leads := .inr rfl
  reads t r ht hr := by
    have hwhole : '(' :: w ++ ')' :: y ++ t = '(' :: (w ++ ')' :: (y ++ t)) := by simp
    rw [hwhole, (show Leads ('(' :: (w ++ ')' :: (y ++ t))) from .inr rfl).rest_expression,
      rest_path_of_parenthesis, (h.leads.append _).skipSpace] at hr
    cases hread : rest expression (w ++ ')' :: (y ++ t)) with
    | none =>
      rw [hread] at hr
      cases hr
    | some u =>
      obtain ⟨c, hc, hne⟩ := h.reads _ u (closed_parenthesis _) hread
      have hclose : rest (.char ')') (skipSpace u) = none := by
        refine rest_eq_none.mpr (char_of_head_ne ?_)
        rw [Option.mem_def.mp hc]
        simpa using hne
      rw [hread, Option.bind_some, hclose] at hr
      cases hr

end Texts

def Settles (bad : List Char → Prop) (ls : List (List Char)) (w : List Char) : Prop :=
  ((∀ leaf ∈ ls, ¬ bad leaf) ∧ Fits w) ∨ ((∃ leaf ∈ ls, bad leaf) ∧ Sticks w)

namespace Settles

theorem bar (h : Settles bad ls w) (h' : Settles bad ls' w') :
    Settles bad (ls ++ ls') (w ++ ([' ', '|', ' '] ++ w')) := by
  rcases h with ⟨hgood, hfits⟩ | ⟨⟨leaf, hmem, hbad⟩, hsticks⟩
  · rcases h' with ⟨hgood', hfits'⟩ | ⟨⟨leaf, hmem, hbad⟩, hsticks'⟩
    · exact .inl ⟨List.forall_mem_append.mpr ⟨hgood, hgood'⟩, hfits.bar hfits'⟩
    · exact .inr ⟨⟨leaf, List.mem_append_right ls hmem, hbad⟩, hfits.bar_sticks hsticks'⟩
  · exact .inr ⟨⟨leaf, List.mem_append_left ls' hmem, hbad⟩, hsticks.bar w'⟩

theorem group (h : Settles bad ls w) (hc : crossed (inside 0) y = some (inside 0))
    (hy : afterGroup y = []) : Settles bad ls ('(' :: w ++ ')' :: y) :=
  h.imp (And.imp_right (·.group hc hy)) (And.imp_right (·.group y))

theorem joined {lists : List (List (List Char))} {texts : List (List Char)}
    (h : List.Forall₂ (Settles bad) lists texts) (hne : texts ≠ []) :
    Settles bad lists.flatten (joinWith [' ', '|', ' '] texts) := by
  induction h with
  | nil => exact absurd rfl hne
  | @cons first text lists texts hfirst hrest ih =>
    by_cases hmore : texts = []
    · subst hmore
      cases hrest
      simpa [joinWith] using hfirst
    · rw [joinWith_cons _ _ hmore]
      exact hfirst.bar (ih hmore)

end Settles

section Leaves

theorem length_branch (n : Nesting) (query : List Char) :
    ∀ b ∈ branchesFrom n query, b.length ≤ query.length := by
  induction query generalizing n with
  | nil => simp [branchesFrom]
  | cons c query ih =>
    cases hc : n.endsBranch c with
    | true =>
      rw [branchesFrom, hc]
      refine List.forall_mem_cons.mpr ⟨Nat.zero_le _, fun b hb => ?_⟩
      exact Nat.le_succ_of_le (ih n b hb)
    | false =>
      rw [branchesFrom_cons hc]
      have hall := ih (n.after c)
      cases hbranches : branchesFrom (n.after c) query with
      | nil => simp
      | cons first more =>
        rw [hbranches] at hall
        obtain ⟨hfirst, hmore⟩ := List.forall_mem_cons.mp hall
        exact List.forall_mem_cons.mpr ⟨Nat.succ_le_succ hfirst, fun b hb =>
          Nat.le_succ_of_le (hmore b hb)⟩

theorem length_trim_le (s : List Char) : (trim s).length ≤ s.length := by
  have hend : ∀ s : List Char, (trimEnd s).length ≤ s.length := fun s => by
    have hle : (s.reverse.dropWhile isBlank).length ≤ s.reverse.length :=
      (List.dropWhile_sublist isBlank).length_le
    rwa [List.length_reverse, ← List.length_reverse] at hle
  exact (hend _).trans (List.dropWhile_sublist isBlank).length_le

theorem eq_cons_of_parenthesized {found : List Char × List Char}
    (h : parenthesized? b = some found) : ∃ x, b = '(' :: x := by
  unfold parenthesized? at h
  split at h
  · exact ⟨_, rfl⟩
  · cases h

theorem scopeBranch_of_parenthesized (nested : List Char → List Char)
    (h : parenthesized? b = some (inner, y)) :
    scopeBranch nested head b = '(' :: nested inner ++ ')' :: y := by
  have hpoint : b ≠ ['.'] := by
    rintro rfl
    cases h
  simp [scopeBranch, hpoint, h]

variable (hleaf : ∀ b, BranchSelects setting focus b → parenthesized? b = none →
  ∀ nested, Settles bad [b] (scopeBranch nested head b))

include hleaf

/-- Below a context a branch that selects nodes does what its leaves do. -/
theorem settles_branch (hnested : ∀ inner : List Char, inner.length < b.length →
    Selects setting focus inner → Settles bad (leavesUpTo depth inner) (scopeUpTo head depth inner))
    (hb : BranchSelects setting focus b) :
    Settles bad (branchLeaves (leavesUpTo depth) b) (scopeBranch (scopeUpTo head depth) head b) := by
  cases hparen : parenthesized? b with
  | none =>
    rw [branchLeaves, hparen]
    exact hleaf b hb hparen _
  | some found =>
    obtain ⟨x, rfl⟩ := eq_cons_of_parenthesized hparen
    obtain ⟨inner, y, rfl, hinner, hselects, hy, hc⟩ := selects_of_parentheses hb
    rw [scopeBranch_of_parenthesized _ hinner, branchLeaves, hinner]
    refine (hnested inner ?_ hselects).group hc hy
    simp only [List.length_cons, List.length_append]
    omega

/-- Below a context a query that selects nodes does what its leaves do. -/
theorem settles_scopeUpTo (hdepth : query.length < depth) (h : Selects setting focus query) :
    Settles bad (leavesUpTo depth query) (scopeUpTo head depth query) := by
  induction depth generalizing query with
  | zero => omega
  | succ depth ih =>
    have hbranches : List.Forall₂ (Settles bad)
        (((branches query).map trim).map (branchLeaves (leavesUpTo depth)))
        (((branches query).map trim).map (scopeBranch (scopeUpTo head depth) head)) := by
      rw [List.forall₂_map_left_iff, List.forall₂_map_right_iff, List.forall₂_same]
      intro b hb
      obtain ⟨branch, hbranch, rfl⟩ := List.mem_map.mp hb
      refine settles_branch hleaf (fun inner hlength hselects => ih ?_ hselects) (h _ hb)
      have hle := length_branch {} query branch hbranch
      have htrim := length_trim_le branch
      omega
    have hne : ((branches query).map trim).map (scopeBranch (scopeUpTo head depth) head) ≠ [] := by
      simpa [branches] using branchesFrom_ne_nil {} query
    have htext : scopeUpTo head (depth + 1) query = joinWith [' ', '|', ' ']
        (((branches query).map trim).map (scopeBranch (scopeUpTo head depth) head)) := by
      rw [scopeUpTo, List.map_map]
      rfl
    rw [htext, leavesUpTo, List.flatMap_def]
    exact Settles.joined hbranches hne

end Leaves

end MarkupQuery.Page
