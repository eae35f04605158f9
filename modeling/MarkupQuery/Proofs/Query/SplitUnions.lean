import MarkupQuery.Proofs.Query.CutPaths
import MarkupQuery.Proofs.Query.UnionLists

namespace MarkupQuery.Query

open MarkupQuery.Text MarkupQuery.Page

variable {s c : List Char} {b : List Char} {e first first' : Expr} {es more more' : List Expr}

/-- Nothing but the bars is lost when a text is cut. -/
theorem joinWith_branchesFrom (n : Nesting) (s : List Char) :
    joinWith ['|'] (branchesFrom n s) = s := by
  induction s generalizing n with
  | nil => rfl
  | cons x s ih =>
    cases hx : n.endsBranch x with
    | true =>
      simp only [Nesting.endsBranch, Bool.and_eq_true, beq_iff_eq] at hx
      obtain ⟨⟨rfl, hdepth⟩, hquote⟩ := hx
      have hbar : branchesFrom n ('|' :: s) = [] :: branchesFrom n s := by
        simp [branchesFrom, Nesting.endsBranch, hdepth, hquote]
      rw [hbar, joinWith_cons _ _ (branchesFrom_ne_nil n s), ih]
      rfl
    | false =>
      have hrest := ih (n.after x)
      rw [branchesFrom_cons hx]
      obtain ⟨part, parts, hparts⟩ := List.exists_cons_of_ne_nil (branchesFrom_ne_nil (n.after x) s)
      rw [hparts] at hrest ⊢
      cases parts with
      | nil => simpa [joinWith] using hrest
      | cons second parts => simpa [joinWith, List.intercalate] using hrest

theorem joinWith_branches (s : List Char) : joinWith ['|'] (branches s) = s :=
  joinWith_branchesFrom {} s

/-- Unions of equally many operands are the same only if their operands are. -/
theorem unionOf_inj_of_length (hl : more.length = more'.length) :
    unionOf first more = unionOf first' more' ↔ first :: more = first' :: more' := by
  refine ⟨fun h => ?_, fun h => ?_⟩
  · induction more generalizing first first' more' with
    | nil =>
      obtain rfl := List.length_eq_zero_iff.mp hl.symm
      exact congrArg (· :: []) h
    | cons second more ih =>
      obtain ⟨second', more', rfl⟩ := List.exists_cons_of_length_eq_add_one hl.symm
      -- the first two operands of both are grouped together
      have htail := ih (Nat.succ.inj hl) h
      obtain ⟨hpair, rfl⟩ := List.cons.inj htail
      obtain ⟨-, rfl, rfl⟩ := Expr.binary.inj hpair
      rfl
  · obtain ⟨rfl, rfl⟩ := List.cons.inj h
    rfl

theorem skipSpace_of_trimmed (h : trim b = b) : skipSpace b = b :=
  skipSpace_of_not_blank (h ▸ head_trim_not_blank b)

/-- A branch that is read as a path is a query by itself. -/
theorem Branch.parse_eq {q : List Char} (h : Branch (trim q) e) : parse (String.ofList q) = .ok e := by
  have hskip := skipSpace_of_trimmed h.trimmed
  have hsign : (skipSpace (trim q)).head? ≠ some '-' := by
    rw [hskip]
    intro hhead
    obtain ⟨s, hs⟩ := List.head?_eq_some_iff.mp hhead
    have hread := h.read
    rw [hs, path_of_minus] at hread
    cases hread
  rw [parse_eq_ok, String.toList_ofList]
  exact expression_of_unionExpr hsign (unionExpr_iff.mpr ⟨e, [], .last h.read, rfl⟩)

/-- Each operand of a union is a branch of the text, read as it is in the union unless it is a
numeral in front of a bar that loses its fraction. -/
theorem branches_of_operands (h : Operands s es) (hs : skipSpace s = s)
    (hlast : ∀ x ∈ s.getLast?, isBlank x = false) :
    ∃ es', List.Forall₂ Branch ((branches s).map trim) es' ∧ es'.length = es.length ∧
      (es' = es ↔ ∀ b ∈ ((branches s).map trim).dropLast, ¬ Number.LosesFraction b) := by
  induction h with
  | @last s e hread =>
    obtain ⟨e', hwhole⟩ := exists_wholePath_of_path hread
    obtain ⟨c, hc, hcrossed⟩ := exists_crossed_of_wholePath hwhole
    rw [List.append_nil] at hc
    subst hc
    have htrim : trim s = s := by
      rw [trim, trimStart_of_head (head_of_path hs hread), trimEnd_of_last hlast]
    rw [branches_of_crossed hcrossed, List.map_singleton, htrim]
    exact ⟨[e], .cons ⟨hread, htrim⟩ .nil, rfl, by simp⟩
  | @more s t s' e es hread ht hrest ih =>
    have hne : t ≠ [] := by
      rintro rfl
      cases ht
    obtain ⟨c, w, rfl, hw, hc, hcut, htrim⟩ :=
      cut_wholePath hs (wholePath_of_path hread hne) (branchEnd_of_bar ht).endsPath
    obtain ⟨e', hbranch, hsame⟩ := exists_path_of_wholePath hcut
    rw [skipSpace_of_trimmed htrim] at hsame
    have hskip : skipSpace (w ++ t) = '|' :: s' := (skipSpace_append_spaces hw t).trans ht
    -- the other operands end where the text ends
    have hend : ∀ x ∈ (skipSpace s').getLast?, isBlank x = false := by
      obtain ⟨u, hu, -⟩ := exists_spaces t
      obtain ⟨u', hu', -⟩ := exists_spaces s'
      intro x hx
      refine hlast x ?_
      rw [hu, ht, hu']
      simp [List.getLast?_append, List.getLast?_cons, Option.mem_def.mp hx]
    obtain ⟨es', hbranches, hlength, hiff⟩ := ih (skipSpace_skipSpace s') hend
    rw [branches_at_bar hc hskip, htrim]
    refine ⟨e' :: es', .cons ⟨hbranch, htrim⟩ hbranches, by simp [hlength], ?_⟩
    have hmore : (branches (skipSpace s')).map trim ≠ [] :=
      mt List.map_eq_nil_iff.mp (branchesFrom_ne_nil {} _)
    rw [List.dropLast_cons_of_ne_nil hmore, List.forall_mem_cons, List.cons.injEq, hsame, hiff]

/-- A query that is read as a union of paths, or as a single one, is its branches with bars between
them. Each branch is a query by itself, and the query is the union of its branches unless one in
front of a bar is a numeral that loses its fraction. -/
theorem parse_branches {q : String} (h : parse q = .ok e) (he : IsUnion e) :
    joinWith ['|'] (branches q.toList) = q.toList ∧
    ∃ first more,
      List.Forall₂ (fun b e => parse (String.ofList b) = .ok e) (branches q.toList)
        (first :: more) ∧
      (unionOf first more = e ↔
        ∀ b ∈ (branches q.toList).dropLast, ¬ Number.LosesFraction (trim b)) := by
  refine ⟨joinWith_branches q.toList, ?_⟩
  obtain ⟨first, more, hoperands, rfl⟩ :=
    unionExpr_iff.mp (unionExpr_of_expression he (parse_eq_ok.mp h))
  have hlast : ∀ x ∈ (trim q.toList).getLast?, isBlank x = false :=
    (exists_trimEnd (trimStart q.toList)).choose_spec.2.2
  obtain ⟨es, hbranches, hlength, hiff⟩ := branches_of_operands hoperands
    (skipSpace_of_not_blank (head_trim_not_blank q.toList)) hlast
  obtain ⟨first', more', rfl⟩ := List.exists_cons_of_length_eq_add_one hlength
  rw [branches_trim] at hbranches hiff
  refine ⟨first', more', ?_, ?_⟩
  · rw [List.forall₂_map_left_iff] at hbranches
    exact hbranches.imp fun b e hb => hb.parse_eq
  · rw [unionOf_inj_of_length (Nat.succ.inj hlength), hiff, ← List.map_dropLast, List.forall_mem_map]

/-- A query that is accepted as an expression with a property. -/
theorem exists_parsed {q : String} {p : Expr → Bool} (h : (parse q).toOption.any p = true) :
    ∃ e, parse q = .ok e ∧ p e = true := by
  cases hread : parse q with
  | ok e =>
    rw [hread] at h
    exact ⟨e, rfl, h⟩
  | error e =>
    rw [hread] at h
    cases h

def nestedUnion : String := "(a|b)[c='|']|1.50/d |.//p:e[f|'g']|2.5"

theorem parse_branches_nested : ∃ e first more, parse nestedUnion = .ok e ∧ IsUnion e ∧
    List.Forall₂ (fun b e => parse (String.ofList b) = .ok e)
      ["(a|b)[c='|']".toList, "1.50/d ".toList, ".//p:e[f|'g']".toList, "2.5".toList]
      (first :: more) ∧ unionOf first more = e := by
  have hok : (parse nestedUnion).toOption.any (fun e => decide (IsUnion e)) = true := by
    decide +kernel
  have hbranches : branches nestedUnion.toList =
      ["(a|b)[c='|']".toList, "1.50/d ".toList, ".//p:e[f|'g']".toList, "2.5".toList] := by
    decide +kernel
  have hread : ∀ b ∈ (branches nestedUnion.toList).dropLast,
      Number.numeral? (trim b) = Number.wholeNumeral? (trim b) := by decide +kernel
  obtain ⟨e, hparse, hunion⟩ := exists_parsed hok
  obtain ⟨-, first, more, hpieces, hiff⟩ := parse_branches hparse (of_decide_eq_true hunion)
  rw [hbranches] at hpieces
  exact ⟨e, first, more, hparse, of_decide_eq_true hunion, hpieces,
    hiff.mpr fun b hb => Number.numeral_eq_whole_iff.mp (hread b hb)⟩

def firstNumber? : Expr → Option Float
  | .binary .union (.number x) _ => some x
  | _ => none

/-- In front of a bar a numeral has its fraction; the branch by itself ends with the numeral. -/
theorem union_fraction_lost : ∃ e first second, parse "1.5|a" = .ok e ∧ IsUnion e ∧
    branches "1.5|a".toList = ["1.5".toList, "a".toList] ∧ parse "1.5" = .ok first ∧
    parse "a" = .ok second ∧ unionOf first [second] ≠ e := by
  have hunion : (parse "1.5|a").toOption.any (fun e =>
      decide (IsUnion e) && decide (firstNumber? e = some (Number.ofDigits ['1'] ['5']))) = true := by
    decide +kernel
  have hfirst : (parse "1.5").toOption.any (fun e => decide (firstNumber?
      (.binary .union e default) = some (Number.ofDigits ['1'] []))) = true := by
    decide +kernel
  have hsecond : (parse "a").toOption.any (fun _ => true) = true := by decide +kernel
  have hbranches : branches "1.5|a".toList = ["1.5".toList, "a".toList] := by decide +kernel
  have hvalue : Number.ofDigits ['1'] [] ≠ Number.ofDigits ['1'] ['5'] := by decide +kernel
  obtain ⟨e, he, hproperties⟩ := exists_parsed hunion
  obtain ⟨first, hparse, hnumber⟩ := exists_parsed hfirst
  obtain ⟨second, hparse', -⟩ := exists_parsed hsecond
  rw [Bool.and_eq_true, decide_eq_true_eq, decide_eq_true_eq] at hproperties
  refine ⟨e, first, second, he, hproperties.1, hbranches, hparse, hparse', ?_⟩
  rintro rfl
  have hsame : firstNumber? (unionOf first [second]) =
      firstNumber? (.binary .union first default) := by
    cases first <;> rfl
  rw [hsame, of_decide_eq_true hnumber] at hproperties
  exact hvalue (Option.some.inj hproperties.2)

end MarkupQuery.Query
