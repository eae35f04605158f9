import MarkupQuery.Proofs.Query.Heads

namespace MarkupQuery.Page

open MarkupQuery.Text MarkupQuery.Query

variable {head b : List Char} {make : List Step → Expr} {steps : List Step}
  {bs : List (List Char)} {es : List Expr}

theorem trimEnd_of_cons {x : Char} {s : List Char} (h : trimEnd (x :: s) = x :: s) :
    trimEnd s = s := by
  obtain ⟨w, -, -, hlast⟩ := exists_trimEnd (x :: s)
  rw [h] at hlast
  cases s with
  | nil => rfl
  | cons y s => exact trimEnd_of_last (by simpa using hlast)

theorem trimEnd_cons {x : Char} {s : List Char} (h : trimEnd s = s) (hne : s ≠ []) :
    trimEnd (x :: s) = x :: s := by
  have happend := trimEnd_append [x] (h.symm ▸ hne : trimEnd s ≠ [])
  rwa [h] at happend

/-- The steps of a path, or all but a first step that stays at the context. -/
def Below (more : List Step) (e : Expr) : Prop :=
  e = .relative more ∨ e = .relative (Step.here :: more)

/-- A branch that begins like a step, but not with a point alone, is put behind a slash. -/
theorem scopeBranch_of_step {x : Char} (hx : startsStep x = true) (hpoint : x :: b ≠ ['.'])
    (hslash : ¬ ∃ rest, x :: b = '.' :: '/' :: rest) (nested : List Char → List Char)
    (head : List Char) : scopeBranch nested head (x :: b) = head ++ '/' :: x :: b := by
  have hne : ∀ y, startsStep y = false → x ≠ y := by
    rintro y hy rfl
    simp [hx] at hy
  have hparen : parenthesized? (x :: b) = none := by
    unfold parenthesized?
    split
    · rename_i hcons
      exact absurd (List.cons.inj hcons).1 (hne '(' (by decide))
    · rfl
  unfold scopeBranch
  rw [hparen, if_neg (by simpa using hpoint)]
  dsimp only
  split
  · rename_i rest hcons
    exact absurd ⟨rest, hcons⟩ hslash
  · rename_i hcons
    exact absurd (List.cons.inj hcons).1 (hne '/' (by decide))
  · rfl

/-- A branch below a context is the text of the context with steps behind it. -/
theorem scopeBranch_eq (nested : List Char → List Char) (head : List Char)
    (h : Piece b (.relative steps)) : ∃ more tail, scopeBranch nested head b = head ++ tail ∧
      Below more (.relative steps) ∧ slashSteps expression tail = some (more, []) ∧
      (tail = [] ∨ (tail.head? = some '/' ∧ trimEnd tail = tail)) := by
  obtain ⟨first, u, lists, hfirst, hlists, he⟩ := relativePath_iff.mp h.read
  obtain rfl := Expr.relative.inj he
  -- a point, a point with steps behind it, or steps alone
  by_cases hpoint : b = ['.']
  · subst hpoint
    rw [step_point branchEnd_nil.stops] at hfirst
    obtain ⟨rfl, rfl⟩ := Prod.mk.inj (Option.some.inj hfirst)
    have hnone : slashStep expression [] = none := slashStep_of_no_slash (by simp)
    rw [many_of_none hnone] at hlists
    obtain ⟨rfl, -⟩ := Prod.mk.inj (Option.some.inj hlists)
    exact ⟨[], [], by simp [scopeBranch], .inr rfl, slashSteps_of_none hnone, .inl rfl⟩
  by_cases hslash : ∃ rest, b = '.' :: '/' :: rest
  · obtain ⟨rest, rfl⟩ := hslash
    rw [step_point (stops_of_slash rfl)] at hfirst
    obtain ⟨rfl, rfl⟩ := Prod.mk.inj (Option.some.inj hfirst)
    refine ⟨lists.flatten, '/' :: rest, by simp [scopeBranch, parenthesized?], .inr rfl, ?_,
      .inr ⟨rfl, trimEnd_of_cons h.trimmed⟩⟩
    exact map_eq_some.mpr ⟨lists, hlists, rfl⟩
  · obtain ⟨x, hx, hstart⟩ := startsStep_of_step hfirst
    obtain ⟨b', rfl⟩ := List.head?_eq_some_iff.mp hx
    have hne : x ≠ '/' := by
      rintro rfl
      cases hstart
    refine ⟨first :: lists.flatten, '/' :: x :: b',
      scopeBranch_of_step hstart hpoint hslash nested head, .inl rfl, ?_,
      .inr ⟨rfl, trimEnd_cons h.trimmed (by simp)⟩⟩
    have hone : slashStep expression ('/' :: x :: b') = some ([first], u) := by
      rw [slashStep_of_one (by simpa using hne), hfirst]
      rfl
    refine map_eq_some.mpr ⟨[first] :: lists, ?_, rfl⟩
    rw [strict_slashStep.many_of_some hone, hlists]
    rfl

/-- A branch below a context is an operand again. -/
theorem operand_of_piece (hh : Heads head make) (nested : List Char → List Char)
    (hp : Piece b (.relative steps)) : ∃ more, Below more (.relative steps) ∧
      Operand (scopeBranch nested head b) (make more) := by
  obtain ⟨more, tail, hscope, hbelow, htail, hshape⟩ := scopeBranch_eq nested head hp
  refine ⟨more, hbelow, ?_⟩
  rw [hscope]
  constructor
  · exact begins_append hh.first tail
  · intro t ht
    obtain ⟨r, hr, htext⟩ := slashSteps_append_end htail ht
    have hfollows : BranchEnd (tail ++ t) ∨ (tail ++ t).head? = some '/' := by
      rcases hshape with rfl | ⟨hslash, -⟩
      · exact .inl ht
      · obtain ⟨tail, rfl⟩ := List.head?_eq_some_iff.mp hslash
        exact .inr rfl
    obtain ⟨r', hr', hread⟩ := hh.reads hfollows htext
    refine ⟨r', ?_, by rw [List.append_assoc, hread]⟩
    rw [skipSpace_eq_of_tail hr', skipSpace_eq_of_tail hr]
  · rcases hshape with rfl | ⟨hslash, htrimmed⟩
    · rw [slashSteps_of_branchEnd branchEnd_nil] at htail
      obtain ⟨rfl, -⟩ := Prod.mk.inj (Option.some.inj htail)
      rw [List.append_nil]
      exact hh.trimmed
    · have hne : trimEnd tail ≠ [] := by
        rw [htrimmed]
        rintro rfl
        simp at hslash
      obtain ⟨r, hr, hread⟩ := hh.reads (.inr hslash) htail
      obtain rfl : r = [] := by rcases hr with rfl | rfl <;> rfl
      rw [trimEnd_append head hne, htrimmed]
      exact hread

/-- The branches below a context are the operands of a union again. -/
theorem operands_of_pieces (hh : Heads head make) (nested : List Char → List Char)
    (hs : List.Forall₂ Piece bs es) (he : ∀ e ∈ es, ∃ steps, e = .relative steps) :
    ∃ mores, List.Forall₂ Below mores es ∧
      List.Forall₂ Operand (bs.map (scopeBranch nested head)) (mores.map make) := by
  induction hs with
  | nil => exact ⟨[], .nil, .nil⟩
  | cons hpiece _ ih =>
    obtain ⟨⟨steps, rfl⟩, hes⟩ := List.forall_mem_cons.mp he
    obtain ⟨more, hbelow, hoperand⟩ := operand_of_piece hh nested hpiece
    obtain ⟨mores, hmores, hrest⟩ := ih hes
    exact ⟨more :: mores, .cons hbelow hmores, .cons hoperand hrest⟩

section Query

variable {query context : String} {first : List Step} {more : List (List Step)}

/-- The branches of a query that is parsed as a union of relative paths. -/
theorem pieces_of_parse (h : parse query = .ok (unionOf (.relative first) (more.map .relative)))
    (hp : ∀ b ∈ branches query.toList, (trim b).head? ≠ some '(') :
    List.Forall₂ Piece ((branches query.toList).map trim) ((first :: more).map .relative) := by
  have hbranches : ∀ b ∈ (branches (trim query.toList)).map trim, b.head? ≠ some '(' := by
    rw [branches_trim]
    simpa using hp
  have hisUnion : IsUnion (unionOf (.relative first) (more.map .relative)) :=
    isUnion_unionOf (show IsUnion (.relative first) from trivial) _
  have hunion := unionExpr_of_expression hisUnion (parse_eq_ok.mp h)
  obtain ⟨e, es, hoperands, he⟩ := unionExpr_iff.mp hunion
  have hread : ∃ r, path expression (trim query.toList) = some (e, r) := by
    cases hoperands with
    | last hread => exact ⟨_, hread⟩
    | more hread => exact ⟨_, hread⟩
  obtain ⟨r, hread⟩ := hread
  have hbinary := path_not_binary (head_of_branches hbranches) hread
  obtain ⟨rfl, rfl⟩ := unionOf_inj rfl hbinary he
  rw [← branches_trim]
  refine pieces_of_operands hoperands ?_ hbranches
  simp

theorem toList_scope (context query : String) : (scope context query).toList =
    joinWith [' ', '|', ' '] (((branches query.toList).map trim).map
      (scopeBranch (scopeUpTo context.toList query.toList.length) context.toList)) := by
  rw [scope, String.toList_ofList, scopeUpTo, List.map_map]
  rfl

/-- A query of relative paths is parsed below a context as a union of the same paths, put behind
what stands for the context. -/
theorem parse_scope (hh : Heads context.toList make)
    (h : parse query = .ok (unionOf (.relative first) (more.map .relative)))
    (hp : ∀ b ∈ branches query.toList, (trim b).head? ≠ some '(') :
    ∃ first' more', List.Forall₂ Below (first' :: more') ((first :: more).map .relative) ∧
      parse (scope context query) = .ok (unionOf (make first') (more'.map make)) := by
  obtain ⟨mores, hbelow, hoperands⟩ := operands_of_pieces hh
    (scopeUpTo context.toList query.toList.length) (pieces_of_parse h hp) (by simp)
  cases hbelow with
  | @cons first' _ more' _ hfirst hmore =>
    exact ⟨first', more', .cons hfirst hmore, parse_of_operands hoperands (toList_scope _ _)⟩

end Query

end MarkupQuery.Page
