import MarkupQuery.Page.Namespaces
import MarkupQuery.Proofs.Page.Scoping
import MarkupQuery.Proofs.Query.Steps
import MarkupQuery.Proofs.Tree.Reachable

namespace MarkupQuery.Query

open MarkupQuery.Page

variable {s : Setting} {here there site : Site} {e e' first first' : Expr} {es es' : List Expr}
  {steps more : List Step}

/-- Two expressions that do the same, each at its own site. -/
structure Agree (s : Setting) (here there : Site) (e e' : Expr) : Prop where
  value : evaluate s { site := here } e = evaluate s { site := there } e'
  unbound : unbound? s.bindings e = unbound? s.bindings e'

theorem Agree.binary {left left' right right' : Expr} (hl : Agree s here there left left')
    (hr : Agree s here there right right') (op : BinaryOp) :
    Agree s here there (.binary op left right) (.binary op left' right') where
  value := by rw [evaluate, evaluate, hl.value, hr.value]
  unbound := by
    have hleft := hl.unbound
    have hright := hr.unbound
    unfold unbound? at hleft hright ⊢
    rw [Expr.qualifiers, Expr.qualifiers, List.find?_append, List.find?_append, hleft, hright]

/-- Unions agree if their operands do. -/
theorem Agree.union (hf : Agree s here there first first')
    (hm : List.Forall₂ (Agree s here there) es es') :
    Agree s here there (unionOf first es) (unionOf first' es') := by
  induction hm generalizing first first' with
  | nil => exact hf
  | cons he _ ih => exact ih (hf.binary he .union)

/-- A first step that stays at the context changes nothing. -/
theorem agree_of_below (s : Setting) (site : Site) (h : Below more e) :
    Agree s site site (.relative more) e := by
  rcases h with rfl | rfl
  · exact ⟨rfl, rfl⟩
  · refine ⟨?_, by simp [unbound?, Expr.qualifiers, stepsQualifiers, Step.here, Step.qualifiers,
      NodeTest.qualifiers, listQualifiers]⟩
    rw [evaluate, evaluate, takeSteps_cons, takeStep_here]
    rfl

theorem agree_point (s : Setting) (site : Site) (h : Below more e) :
    Agree s site site (.relative (Step.here :: more)) e := by
  have hmore := agree_of_below s site (show Below more (.relative (Step.here :: more)) from .inr rfl)
  have hthis := agree_of_below s site h
  exact ⟨hmore.value.symm.trans hthis.value, hmore.unbound.symm.trans hthis.unbound⟩

/-- Steps behind a path that leads to one site are taken from that site. -/
theorem agree_absolute (hs : takeSteps s steps [s.root] = .ok [site])
    (hb : unbound? s.bindings (.absolute steps) = none) (h : Below more e) :
    Agree s here site (.absolute (steps ++ more)) e := by
  have hthis := agree_of_below s site h
  refine ⟨?_, ?_⟩
  · rw [← hthis.value, evaluate, evaluate, takeSteps_append, hs]
    rfl
  · rw [← hthis.unbound]
    unfold unbound? at hb ⊢
    rw [Expr.qualifiers] at hb
    rw [Expr.qualifiers, Expr.qualifiers, stepsQualifiers_append, List.find?_append, hb]
    rfl

/-- Queries that are parsed as expressions that agree select the same or fail together. -/
theorem Agree.select {query query' : String} (h : Agree s here there e e')
    (hq : parse query = .ok e) (hq' : parse query' = .ok e') :
    (Query.select s here query).toOption = (Query.select s there query').toOption := by
  refine Option.ext fun sites => ?_
  rw [toOption_eq_some, toOption_eq_some, select_eq_ok, select_eq_ok, hq, hq']
  simp [h.value, h.unbound]

end MarkupQuery.Query

namespace MarkupQuery.Page

open MarkupQuery.Query MarkupQuery.Tree

variable {page : Page} {site : Site} {query path : String} {first : List Step}
  {more : List (List Step)} {steps : List Step}

theorem head_renderAddress (segments : List Segment) :
    (renderAddress segments).toList.head? = some '/' := by
  cases segments with
  | nil => rfl
  | cons segment segments => simp [renderAddress, String.join_cons]

theorem head_contextPath (h : page.contextPath site = .ok path) :
    path.toList.head? = some '/' := by
  obtain ⟨segments, -, rfl⟩ := map_eq_ok.mp h
  exact head_renderAddress segments

theorem path_of_expression {s : List Char} (h : expression s = some (.absolute steps, [])) :
    Query.path expression s = some (.absolute steps, []) := by
  have hunion := unionExpr_of_expression (show IsUnion (.absolute steps) from trivial) h
  obtain ⟨e, es, hoperands, he⟩ := unionExpr_iff.mp hunion
  obtain rfl : es = [] := by
    rcases List.eq_nil_or_concat es with rfl | ⟨before, last, rfl⟩
    · rfl
    · rw [List.concat_eq_append, unionOf_concat] at he
      cases he
  obtain rfl : .absolute steps = e := he
  cases hoperands with
  | last hpath => exact hpath
  | more _ _ hrest => cases hrest

/-- A path that is read to its end as it is written is parsed alike. -/
theorem parse_of_expression (hslash : path.toList.head? = some '/')
    (h : expression path.toList = some (.absolute steps, [])) :
    Query.parse path = .ok (.absolute steps) := by
  have hpath := path_of_expression h
  have hbegins : Begins path.toList := .inl hslash
  rw [parse_eq_ok, Text.trim, trimStart_of_head hbegins.head_not_blank]
  have htrimmed : Query.path expression (Text.trimEnd path.toList) = some (.absolute steps, []) := by
    cases steps with
    | nil =>
      have hone := eq_slash_of_path hslash hpath
      rw [hone] at hpath ⊢
      exact hpath
    | cons step steps =>
      have hh := heads_of_path hslash (by simp) hpath
      simpa using hh.trimmed
  refine expression_of_unionExpr ?_ (unionExpr_iff.mpr ⟨_, [], .last htrimmed, rfl⟩)
  rw [skipSpace_of_begins (begins_trimEnd hbegins), head_trimEnd hbegins.head_not_blank, hslash]
  decide

/-- What a query of relative paths selects at a context, it selects below what stands for it. -/
theorem select_scope {make : List Step → Expr} {context : String} {start : Site}
    (hh : Heads context.toList make)
    (ha : ∀ more e, Below more e → Agree page.setting start site (make more) e)
    (hq : Query.parse query = .ok (unionOf (.relative first) (more.map .relative)))
    (hp : ∀ b ∈ branches query.toList, (Text.trim b).head? ≠ some '(') :
    (select page.setting start (scope context query)).toOption =
      (select page.setting site query).toOption := by
  obtain ⟨first', more', hbelow, hparse⟩ := parse_scope hh hq hp
  cases hbelow with
  | cons hfirst hmore =>
    refine Agree.select (Agree.union (ha _ _ hfirst) ?_) hparse hq
    exact List.forall₂_map_left_iff.mpr (hmore.imp fun more e h => ha more e h)

theorem toOption_execute {start : Site} {text : String}
    (hs : page.scopedQuery query (some site) = .ok (text, start)) :
    (page.execute query (some site)).toOption =
      (select page.setting start text).toOption.map (Matches.mk page.serial) := by
  unfold execute
  rw [hs]
  cases h : select page.setting start text <;>
    simp [bind, Except.bind, h, Except.mapError, Except.toOption, pure, Except.pure]

/-- At a context that is not the document node, a query of relative paths selects what it selects
when it is evaluated at the context, or both fail. The address of an attached context has to be
read, as it is written, as one absolute path that selects the context only. -/
theorem execute_at_context (hd : page.document.Reachable)
    (hq : Query.parse query = .ok (unionOf (.relative first) (more.map .relative)))
    (hp : ∀ b ∈ branches query.toList, (Text.trim b).head? ≠ some '(')
    (hsite : site.kind page.document ≠ .root)
    (hpath : page.document.isAttached site.id = true → ∃ path steps,
      page.contextPath site = .ok path ∧
      expression path.toList = some (.absolute steps, []) ∧
      select page.setting .document path = .ok [site]) :
    (page.execute query (some site)).toOption =
      (select page.setting site query).toOption.map (Matches.mk page.serial) := by
  have hkind : (site.kind page.document == .root) = false := by simpa using hsite
  by_cases hcall : callsFirst query = true
  · exact toOption_execute (by simp [scopedQuery, hkind, hcall])
  -- an attached context is written as its path, any other as a point
  cases hattached : page.document.isAttached site.id with
  | false =>
    have hscoped : page.scopedQuery query (some site) = .ok (scope "." query, site) := by
      simp [scopedQuery, hkind, hcall, hattached]
    rw [toOption_execute hscoped]
    exact congrArg _ (select_scope heads_point (fun _ _ h => agree_point _ _ h) hq hp)
  | true =>
    obtain ⟨path, steps, hcontext, hread, hselect⟩ := hpath hattached
    have hscoped : page.scopedQuery query (some site) = .ok (scope path query, .document) := by
      simp [scopedQuery, hkind, hcall, hattached, hcontext, bind, Except.bind, pure, Except.pure]
    obtain ⟨e, hparse, hbound, hvalue⟩ := select_eq_ok.mp hselect
    have hslash := head_contextPath hcontext
    obtain rfl : .absolute steps = e :=
      Except.ok.inj ((parse_of_expression hslash hread).symm.trans hparse)
    have hsteps : takeSteps page.setting steps [page.setting.root] = .ok [site] := by
      rw [evaluate, map_eq_ok] at hvalue
      obtain ⟨found, hfound, he⟩ := hvalue
      rw [hfound, Value.nodes.inj he]
    -- a path without steps leads to the document node
    have hne : steps ≠ [] := by
      rintro rfl
      rw [takeSteps_nil, Except.ok.injEq, List.cons.injEq] at hsteps
      refine hsite ?_
      rw [← hsteps.1]
      have hroot := hd.forest.root_payload
      change Site.kind page.document .document = .root
      simp [Site.kind, Site.document, hroot]
    rw [toOption_execute hscoped]
    exact congrArg _ (select_scope (heads_of_path hslash hne (path_of_expression hread))
      (fun _ _ h => agree_absolute hsteps hbound h) hq hp)

def movedPage : Page := { serial := 0, document := movedOut }

/-- At the element that stayed, the element in front of it and the element itself are found. -/
theorem execute_at_context_movedPage : movedPage.document.Reachable ∧
    (movedPage.execute "preceding::*|." (some (.node 1))).toOption =
      (select movedPage.setting (.node 1) "preceding::*|.").toOption.map (Matches.mk 0) ∧
    select movedPage.setting (.node 1) "preceding::*|." = .ok [.node 2, .node 1] := by
  have hq : Query.parse "preceding::*|." =
      .ok (unionOf (.relative [.mk .preceding .any []]) ([[Step.here]].map .relative)) := rfl
  have hp : ∀ b ∈ branches "preceding::*|.".toList, (Text.trim b).head? ≠ some '(' := by
    decide +kernel
  have hsite : Site.kind movedPage.document (.node 1) ≠ .root := by decide +kernel
  have hcontext : movedPage.contextPath (.node 1) = .ok "/a" := by decide +kernel
  have hread : expression "/a".toList =
      some (.absolute [.mk .child (.name none "a") []], []) := rfl
  have hselect : select movedPage.setting .document "/a" = .ok [.node 1] := by decide +kernel
  exact ⟨reachable_movedOut, execute_at_context reachable_movedOut hq hp hsite fun _ =>
    ⟨_, _, hcontext, hread, hselect⟩, by decide +kernel⟩

def plainPage : Page where
  serial := 0
  document := (Change.append 1 2).apply ((Change.append 0 1).apply
    ((Change.create (.element { name := "b" })).apply
      ((Change.create (.element { name := "r" })).apply .empty)))
  prefixes := PrefixTable.empty.register "q" "v"

def barredPage : Page := (StateT.run (changeNamespace .whole "*|q" "u") plainPage).2

theorem reachable_barredPage : barredPage.document.Reachable := by
  have hplain : plainPage.document.Reachable := by
    dsimp only [plainPage]
    refine .change_alone _ ?_ (by simp)
    refine .change_alone _ ?_ (by simp)
    refine .change_alone _ ?_ (by simp)
    exact .change_alone _ .empty (by simp)
  have hedit : barredPage.document =
      (Change.edit (enteringEdits plainPage.document 1 "*|q" "u")).apply plainPage.document := by
    rw [Document.mk.injEq]
    decide +kernel
  rw [hedit]
  exact .change_alone _ hplain (by simp)

/-- A bar in a prefix makes a union of the address, and only its last branch is continued. So the
address still selects the element alone, but a query for its children gives the element. -/
theorem execute_differs_at_barredPage : barredPage.document.Reachable ∧
    barredPage.document.isAttached 1 = true ∧
    Site.kind barredPage.document (.node 1) = .element ∧
    barredPage.contextPath (.node 1) = .ok "/*|q:r" ∧
    select barredPage.setting .document "/*|q:r" = .ok [.node 1] ∧
    Query.parse "*" = .ok (.relative [.mk .child .any []]) ∧
    barredPage.execute "*" (some (.node 1)) = .ok ⟨0, [.node 1]⟩ ∧
    select barredPage.setting (.node 1) "*" = .ok [.node 2] :=
  ⟨reachable_barredPage, by decide +kernel, by decide +kernel, by decide +kernel,
    by decide +kernel, rfl, by decide +kernel, by decide +kernel⟩

end MarkupQuery.Page
