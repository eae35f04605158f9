import MarkupQuery.Proofs.Query.CutPaths
import MarkupQuery.Proofs.Query.UnionLists

namespace MarkupQuery.Query

open MarkupQuery.Text MarkupQuery.Page Reader

variable {s s' r t b c : List Char} {e first : Expr} {es more : List Expr}

/-- A text whose operands are read one after the other, in front of a rest. -/
inductive OperandsUpTo (r : List Char) : List Char → List Expr → Prop
  | last {s : List Char} {e : Expr} (h : path expression s = some (e, r)) : OperandsUpTo r s [e]
  | more {s t s' : List Char} {e : Expr} {es : List Expr} (h : path expression s = some (e, t))
    (ht : skipSpace t = '|' :: s') (hs : OperandsUpTo r (skipSpace s') es) :
    OperandsUpTo r s (e :: es)

theorem operandsUpTo_of_many {items : List (BinaryOp × Expr)}
    (h : Reader.many barred t = some (items, r)) :
    ∃ es : List Expr, items = es.map (fun e => (.union, e)) ∧ ((es = [] ∧ r = t) ∨
      ∃ s, skipSpace t = '|' :: s ∧ OperandsUpTo r (skipSpace s) es) := by
  induction items generalizing t with
  | nil =>
    rcases strict_barred.many_iff.mp h with ⟨-, -, rfl⟩ | ⟨_, _, _, -, -, hcons⟩
    · exact ⟨[], rfl, .inl ⟨rfl, rfl⟩⟩
    · cases hcons
  | cons item items ih =>
    rcases strict_barred.many_iff.mp h with ⟨-, hnil, -⟩ | ⟨⟨op, e⟩, u, _, hfirst, hrest, hcons⟩
    · cases hnil
    · obtain ⟨rfl, rfl⟩ := List.cons.inj hcons
      obtain ⟨rfl, s, hs, hpath⟩ := barred_iff.mp hfirst
      obtain ⟨es, rfl, ⟨rfl, rfl⟩ | ⟨s', hs', hmore⟩⟩ := ih hrest
      · exact ⟨[e], rfl, .inr ⟨s, hs, .last hpath⟩⟩
      · exact ⟨e :: es, rfl, .inr ⟨s, hs, .more hpath hs' hmore⟩⟩

theorem operandsUpTo_of_unionExpr (h : unionExpr expression s = some (e, r)) :
    ∃ first more, OperandsUpTo r s (first :: more) ∧ e = unionOf first more := by
  rw [unionExpr, leftChain, map_eq_some] at h
  obtain ⟨⟨first, items⟩, hboth, rfl⟩ := h
  obtain ⟨t, hfirst, hmany⟩ := both_eq_some.mp hboth
  obtain ⟨es, rfl, ⟨rfl, rfl⟩ | ⟨s', hs', hmore⟩⟩ := operandsUpTo_of_many hmany
  · exact ⟨first, [], .last hfirst, rfl⟩
  · exact ⟨first, es, .more hfirst hs' hmore, foldl_union first es⟩

/-- The operands of a text are its branches. -/
theorem branches_of_operandsUpTo (h : OperandsUpTo r s es) (hr : EndsPath r)
    (hs : skipSpace s = s) (hn : ∀ e ∈ es, ¬ OfNumber e) :
    ∃ c, s = c ++ r ∧ ∀ b ∈ (branches c).map trim, ∃ e ∈ es, Branch b e := by
  have hnumeral : ∀ {s e r}, path expression s = some (e, r) → ¬ OfNumber e →
      Number.numeral? (skipSpace s) = none := by
    intro s e r hread hnot
    by_contra hn
    exact hnot (ofNumber_of_path hread hn)
  induction h with
  | last hread =>
    obtain ⟨c, rfl, hc, hbranch⟩ := branch_of_path (hnumeral hread (hn _ (by simp))) hs hread hr
    refine ⟨c, rfl, ?_⟩
    rw [branches_of_crossed hc]
    simpa using hbranch
  | @more s t s' e es hread ht _ ih =>
    obtain ⟨hfirst, hrest⟩ := List.forall_mem_cons.mp hn
    obtain ⟨c, rfl, hc, hbranch⟩ := branch_of_path (hnumeral hread hfirst) hs hread
      (branchEnd_of_bar ht).endsPath
    obtain ⟨d, hd, hbranches⟩ := ih (skipSpace_skipSpace s') hrest
    obtain ⟨w, hw, hspaces⟩ := exists_spaces t
    obtain ⟨w', hw', hspaces'⟩ := exists_spaces s'
    have hcrossed : crossed (inside 0) (c ++ w) = some (inside 0) := by
      rw [crossed_append, hc]
      exact crossed_spaces hspaces 0
    refine ⟨c ++ w ++ '|' :: (w' ++ d), ?_, ?_⟩
    · rw [hw, ht, hw', hd]
      simp
    · rw [branches_of_bar hcrossed, List.map_cons,
        trim_append_blanks fun x hx => isBlank_of_isSpace x (hspaces x hx),
        branches_blanks_append fun x hx => isBlank_of_isSpace x (hspaces' x hx)]
      refine List.forall_mem_cons.mpr ⟨⟨e, List.mem_cons_self, hbranch⟩, fun b hb => ?_⟩
      obtain ⟨e', he', hb'⟩ := hbranches b hb
      exact ⟨e', List.mem_cons_of_mem _ he', hb'⟩

section Values

variable {setting : Setting} {focus : Focus} {found sites : List Site}

def BranchSelects (setting : Setting) (focus : Focus) (b : List Char) : Prop :=
  ∃ e found, Branch b e ∧ evaluate setting focus e = .ok (.nodes found)

def Selects (setting : Setting) (focus : Focus) (c : List Char) : Prop :=
  ∀ b ∈ (branches c).map trim, BranchSelects setting focus b

theorem selects_of_expression (h : expression s = some (e, r)) (hr : EndsPath r)
    (hs : skipSpace s = s) (he : evaluate setting focus e = .ok (.nodes found)) :
    ∃ c, s = c ++ r ∧ Selects setting focus c := by
  obtain ⟨first, more, hoperands, rfl⟩ :=
    operandsUpTo_of_unionExpr (unionExpr_of_expression (isUnion_of_nodes he) h)
  have hnodes := nodes_of_unionOf he
  obtain ⟨c, hc, hbranches⟩ := branches_of_operandsUpTo hoperands hr hs fun e hmem hnumber => by
    obtain ⟨sites, hsites⟩ := hnodes e hmem
    exact hnumber.evaluate_ne hsites
  refine ⟨c, hc, fun b hb => ?_⟩
  obtain ⟨e, hmem, hbranch⟩ := hbranches b hb
  obtain ⟨sites, hsites⟩ := hnodes e hmem
  exact ⟨e, sites, hbranch, hsites⟩

/-- The branches of a query that selects nodes select nodes. -/
theorem selects_of_select {site : Site} {query : String}
    (h : select setting site query = .ok sites) : Selects setting { site } query.toList := by
  obtain ⟨e, hparse, -, hvalue⟩ := select_eq_ok.mp h
  have hread := parse_eq_ok.mp hparse
  have hskip := skipSpace_of_not_blank (head_trim_not_blank query.toList)
  obtain ⟨c, hc, hselects⟩ := selects_of_expression hread endsPath_nil hskip hvalue
  rw [List.append_nil] at hc
  rwa [← hc, Selects, branches_trim] at hselects

theorem nodes_of_continueBy {steps : List Step}
    (h : evaluate setting focus (e.continueBy steps) = .ok (.nodes found)) :
    ∃ sites, evaluate setting focus e = .ok (.nodes sites) := by
  have htaken : ∀ {first start}, (takeSteps setting (first ++ steps) start).map Value.nodes =
      .ok (.nodes found) → ∃ sites, (takeSteps setting first start).map Value.nodes =
        .ok (.nodes sites) := by
    intro first start h
    obtain ⟨sites, hsites, -⟩ := map_eq_ok.mp h
    rw [takeSteps_append, bind_eq_ok] at hsites
    obtain ⟨between, hbetween, -⟩ := hsites
    exact ⟨between, map_eq_ok.mpr ⟨between, hbetween, rfl⟩⟩
  unfold Expr.continueBy at h
  split at h
  · exact ⟨found, h⟩
  · split at h
    · rw [evaluate] at h ⊢
      exact htaken h
    · rw [evaluate] at h ⊢
      exact htaken h
    · rename_i start first
      rw [evaluate, bind_eq_ok] at h
      obtain ⟨value, hvalue, h⟩ := h
      cases value with
      | nodes sites =>
        obtain ⟨between, hbetween⟩ := htaken h
        refine ⟨between, ?_⟩
        rw [evaluate, hvalue]
        exact hbetween
      | scalar x => cases h
    · exact nodes_of_continued h

/-- Whatever predicates and steps follow it, what a path of nodes starts with has nodes. -/
theorem nodes_of_start {predicates : List Expr} {steps : List Step}
    (h : evaluate setting focus
      ((if predicates.isEmpty then e else .filter e predicates).continueBy steps) =
        .ok (.nodes found)) : ∃ sites, evaluate setting focus e = .ok (.nodes sites) := by
  obtain ⟨sites, hsites⟩ := nodes_of_continueBy h
  split at hsites
  · exact ⟨sites, hsites⟩
  · exact nodes_of_filter hsites

end Values

section Parentheses

def afterGroup (y : List Char) : List Char :=
  exhaust (slashStep expression) (exhaust (predicate expression) (skipSpace y))

/-- What begins with a parenthesis is an expression up to the parenthesis that closes it. -/
theorem primary_of_parenthesis (x : List Char) : primary expression ('(' :: x) =
    (expression (skipSpace x)).bind fun (e, r) =>
      (Reader.char ')' (skipSpace r)).map fun (_, y) => (e, skipSpace y) := by
  have hnumeral : Number.numeral? ('(' :: x) = none := rfl
  have hliteral : stringLiteral ('(' :: x) = none := rfl
  have hcall : functionCall expression ('(' :: x) = none := by
    simp [functionCall, qualifiedName_of_none (show plainName ('(' :: x) = none from rfl)]
  have hskip : skipSpace ('(' :: x) = '(' :: x := rfl
  have hopen : Reader.char '(' ('(' :: x) = some ((), x) := rfl
  simp only [primary, Reader.spaced, hskip, Reader.orElse, Reader.map, hnumeral, hliteral, hcall,
    parenthesized, Reader.both, hopen, Option.map_none, Option.map_some, Option.bind_eq_bind,
    Option.bind_some]
  cases expression (skipSpace x) with
  | none => rfl
  | some found =>
    obtain ⟨e, r⟩ := found
    cases hclose : Reader.char ')' (skipSpace r) with
    | none => simp [hclose]
    | some closed => simp [hclose, skipSpace_skipSpace]

theorem locationPath_of_parenthesis (x : List Char) :
    locationPath expression ('(' :: x) = none := by
  rw [locationPath_of_no_slash (by simp)]
  have hstep : step expression ('(' :: x) = none :=
    step_of_no_start (by simp [startsStep]; decide) expression
  simp [relativePath, Reader.map, Reader.both, hstep]

theorem rest_path_of_parenthesis (x : List Char) : rest (path expression) ('(' :: x) =
    (rest expression (skipSpace x)).bind fun r =>
      (rest (.char ')') (skipSpace r)).map afterGroup := by
  have hlocation := rest_eq_none.mpr (locationPath_of_parenthesis x)
  have hfiltered : rest (filtered expression) ('(' :: x) =
      (rest (primary expression) ('(' :: x)).map (exhaust (predicate expression)) := by
    rw [filtered, rest_map, rest_both]
    cases rest (primary expression) ('(' :: x) <;> rfl
  rw [rest_path, hlocation, Option.or_none, hfiltered, rest, primary_of_parenthesis]
  unfold rest
  cases expression (skipSpace x) with
  | none => rfl
  | some found =>
    obtain ⟨e, r⟩ := found
    cases hclose : Reader.char ')' (skipSpace r) with
    | none => simp [hclose]
    | some closed => simp [hclose, afterGroup]

theorem foldl_of_crossed {n m : Nesting} (h : crossed n c = some m) :
    c.foldl Nesting.after n = m := by
  induction c generalizing n with
  | nil => exact Option.some.inj h
  | cons x c ih => exact ih (crossed_cons.mp h).2

/-- What follows a closing parenthesis to the end of a path is read alike in front of the end of
another one. -/
theorem afterGroup_append {y : List Char} (hc : crossed (inside 0) y = some (inside 0))
    (hy : afterGroup y = []) (ht : EndsPath t) :
    afterGroup (y ++ t) = t ∨ afterGroup (y ++ t) = skipSpace t := by
  have hR := twins_cut endsPath_nil.1 ht.1
  have hcut : Cut [] t (inside 0) (skipSpace y) (skipSpace (y ++ t)) :=
    hR.skipSpace ⟨y, [], t, (List.append_nil y).symm, rfl, .inl rfl, .inl rfl, hc⟩
  have hn : ∀ bound depth, Steady (Cut [] t) (bound - 1) 0 (depth + 1) (depth + 1) expression
      expression := fun _ depth => steady_expression hR depth
  have hrel := rel_of_steady (fun bound => Agrees.both
    (.many (steady_predicate (hn bound) hR))
    (steady_slashSteps (hn bound) (steady_slash_cut endsPath_nil ht) hR)) hcut
  rw [rest_both, rest_both, rest_many, rest_many, Option.bind_some, Option.bind_some,
    rest_slashSteps, rest_slashSteps] at hrel
  change Option.Rel _ (some (afterGroup y)) (some (afterGroup (y ++ t))) at hrel
  rw [hy] at hrel
  cases hrel with
  | some hrest =>
    obtain ⟨d, v, v', hv, he, -, hv', -⟩ := hrest
    obtain ⟨rfl, -⟩ := List.append_eq_nil_iff.mp hv.symm
    rw [he]
    exact hv'

/-- A path that begins with a parenthesis starts at the expression in the parentheses. -/
theorem path_of_parenthesis_eq_some {x : List Char} (h : path expression ('(' :: x) = some (e, t)) :
    ∃ (inner : Expr) (predicates : List Expr) (steps : List Step) (r y : List Char),
      expression (skipSpace x) = some (inner, r) ∧ skipSpace r = ')' :: y ∧ afterGroup y = t ∧
      e = (if predicates.isEmpty then inner else .filter inner predicates).continueBy steps := by
  obtain ⟨⟨start, steps⟩, hboth, rfl⟩ := map_eq_some.mp h
  obtain ⟨u, hstart, hsteps⟩ := both_eq_some.mp hboth
  have hfiltered : filtered expression ('(' :: x) = some (start, u) := by
    unfold Reader.orElse at hstart
    split at hstart
    · rename_i hfound
      exact hfound.trans hstart
    · rw [locationPath_of_parenthesis] at hstart
      cases hstart
  obtain ⟨⟨inner, predicates⟩, hinside, rfl⟩ := map_eq_some.mp hfiltered
  obtain ⟨v, hprimary, hpredicates⟩ := both_eq_some.mp hinside
  rw [primary_of_parenthesis, Option.bind_eq_some_iff] at hprimary
  obtain ⟨⟨_, r⟩, hexpression, hclosed⟩ := hprimary
  obtain ⟨⟨_, y⟩, hclose, hpair⟩ := Option.map_eq_some_iff.mp hclosed
  obtain ⟨rfl, rfl⟩ := Prod.mk.inj hpair
  have hgroup : afterGroup y = t := by
    have hrest := rest_eq_some.mpr ⟨_, hsteps⟩
    have hmany := rest_eq_some.mpr ⟨_, hpredicates⟩
    rw [rest_slashSteps] at hrest
    rw [rest_many] at hmany
    rw [afterGroup, Option.some.inj hmany]
    exact Option.some.inj hrest
  exact ⟨_, predicates, steps, r, y, hexpression, char_eq_some.mp hclose, hgroup, rfl⟩

/-- An expression that is read up to a closing parenthesis stands in front of it, with blanks around
it. -/
theorem exists_enclosed {x y : List Char} (h : expression (skipSpace x) = some (e, r))
    (hr : skipSpace r = ')' :: y) : ∃ w d w', x = w ++ d ++ w' ++ ')' :: y ∧ skipSpace x = d ++ r ∧
      Balanced (w ++ d ++ w') ∧ (∀ c ∈ w, isBlank c = true) ∧ ∀ c ∈ w', isBlank c = true := by
  obtain ⟨d, hd, hbalanced⟩ := balances_expression _ _ _ h
  obtain ⟨w, hw, hspaces⟩ := exists_spaces x
  obtain ⟨w', hw', hspaces'⟩ := exists_spaces r
  refine ⟨w, d, w', ?_, hd, ((Balanced.spaces hspaces).append hbalanced).append (.spaces hspaces'),
    fun c hc => isBlank_of_isSpace c (hspaces c hc),
    fun c hc => isBlank_of_isSpace c (hspaces' c hc)⟩
  rw [List.append_assoc (w ++ d), ← hr, ← hw', List.append_assoc, ← hd]
  exact hw

/-- The branches of what a branch encloses in parentheses select nodes if the branch does. -/
theorem selects_of_parentheses {setting : Setting} {focus : Focus} {x : List Char}
    (h : BranchSelects setting focus ('(' :: x)) : ∃ inner y, x = inner ++ ')' :: y ∧
      parenthesized? ('(' :: x) = some (inner, y) ∧ Selects setting focus inner ∧
      afterGroup y = [] ∧ crossed (inside 0) y = some (inside 0) := by
  obtain ⟨e, found, ⟨hread, -⟩, he⟩ := h
  obtain ⟨c, hc, hcrossed⟩ := exists_crossed_of_path rfl hread
  rw [List.append_nil] at hc
  obtain ⟨e', predicates, steps, r, y, hexpression, hr, hgroup, rfl⟩ :=
    path_of_parenthesis_eq_some hread
  obtain ⟨w, d, w', hx, hd, hinner, hblank, hblank'⟩ := exists_enclosed hexpression hr
  obtain ⟨sites, hsites⟩ := nodes_of_start he
  have hends : EndsPath r := by
    rw [EndsPath, Stops, hr]
    exact ⟨fun c hc => .inr (.inr (.inl (Option.some.inj hc).symm)), by simp⟩
  obtain ⟨d', hd', hselects⟩ :=
    selects_of_expression hexpression hends (skipSpace_skipSpace x) hsites
  obtain rfl : d' = d := List.append_cancel_right (hd'.symm.trans hd)
  refine ⟨w ++ d' ++ w', y, hx, ?_, ?_, hgroup, ?_⟩
  · have hupTo := hinner.upToClose_append 0 (')' :: y)
    rw [← hx] at hupTo
    rw [parenthesized?, hupTo]
    simp [upToClose]
  · rwa [Selects, branches_append_blanks hblank', branches_blanks_append hblank]
  · have hwhole : '(' :: x = '(' :: (w ++ d' ++ w') ++ [')'] ++ y := by
      rw [hx]
      simp
    rw [← hc, hwhole, crossed_append, Option.bind_eq_some_iff] at hcrossed
    obtain ⟨m, hm, hy⟩ := hcrossed
    rwa [← foldl_of_crossed hm, hinner.round.foldl_after 0] at hy

end Parentheses

end MarkupQuery.Query
