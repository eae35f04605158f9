import MarkupQuery.Page.Action
import MarkupQuery.Proofs.Page.Agreement
import MarkupQuery.Proofs.Page.Reachable
import MarkupQuery.Proofs.Page.Runs
import MarkupQuery.Proofs.Query.UnionLists
import MarkupQuery.Proofs.Selector.Acceptance
import MarkupQuery.Proofs.Selector.Joined
import MarkupQuery.Proofs.Selector.Whole

namespace MarkupQuery.Selector

open MarkupQuery.Text MarkupQuery.Query MarkupQuery.Page

variable {branch : Branch} {found : List Branch} {path : String}

def emitted (anchor : Anchor) (found : List Branch) : String :=
  Compiled.query ⟨found.map fun branch => String.ofList (emitBranch anchor branch)⟩

theorem trim_emitBranch (hne : branch ≠ []) :
    trim (emitBranch .context branch) = '.' :: trimEnd (emitSteps branch) := by
  have hbegins : Begins (trimEnd (emitSteps branch)) := begins_trimEnd (.inl (head_emitSteps hne))
  have hstart : trimStart (emitBranch .context branch) = emitBranch .context branch :=
    trimStart_of_head fun x hx => by
      obtain rfl : '.' = x := by simpa [emitBranch, Anchor.emit] using hx
      rfl
  rw [trim, hstart]
  exact trimEnd_append ['.'] hbegins.ne_nil

theorem scopeBranch_emitted (hne : branch ≠ []) (nested : List Char → List Char)
    (head : List Char) : scopeBranch nested head (trim (emitBranch .context branch)) =
      head ++ trimEnd (emitSteps branch) := by
  have hslash : (trimEnd (emitSteps branch)).head? = some '/' := by
    rw [head_trimEnd (Begins.head_not_blank (.inl (head_emitSteps hne))), head_emitSteps hne]
  obtain ⟨rest, hrest⟩ := List.head?_eq_some_iff.mp hslash
  rw [trim_emitBranch hne, hrest]
  simp [scopeBranch, parenthesized?]

/-- Below a context, the steps of every branch stand behind the address. -/
theorem toList_scope_emitted (hne : found ≠ [])
    (h : ∀ branch ∈ found, branch ≠ [] ∧ branch.Scanned) :
    (scope path (emitted .context found)).toList = joinWith [' ', '|', ' ']
      (found.map fun branch => path.toList ++ trimEnd (emitSteps branch)) := by
  have hwhole : ∀ text ∈ found.map (emitBranch .context), Whole text :=
    List.forall_mem_map.mpr fun branch hbranch => whole_emitBranch .context (h branch hbranch).2
  rw [toList_scope, emitted, toList_query, branches_joinWith (by simpa using hne) hwhole]
  simp only [List.map_map]
  exact congrArg _ (List.map_congr_left fun branch hbranch =>
    scopeBranch_emitted (h branch hbranch).1 _ _)

theorem startsWithCall_of_point {b : List Char} (h : (trim b).head? = some '.') :
    startsWithCall b = false := by
  obtain ⟨w, hw, -, -⟩ := exists_trimEnd (trimStart b)
  obtain ⟨rest, hrest⟩ := List.head?_eq_some_iff.mp h
  have hbody : trimStart b = '.' :: (rest ++ w) := by
    rw [hw, ← trim, hrest]
    rfl
  have hpoint : isCallChar '.' = true := by decide +kernel
  have hletter : isLetter '.' = false := by decide +kernel
  simp [startsWithCall, hbody, hpoint, hletter]

theorem callsFirst_emitted (hne : found ≠ [])
    (h : ∀ branch ∈ found, branch ≠ [] ∧ branch.Scanned) :
    callsFirst (emitted .context found) = false := by
  have hwhole : ∀ text ∈ found.map (emitBranch .context), Whole text :=
    List.forall_mem_map.mpr fun branch hbranch => whole_emitBranch .context (h branch hbranch).2
  have hbranches := branches_joinWith (by simpa using hne) hwhole
  rw [callsFirst, emitted, toList_query, List.any_eq_false]
  intro b hb
  have hmem : trim b ∈ (found.map (emitBranch .context)).map trim :=
    hbranches ▸ List.mem_map_of_mem hb
  obtain ⟨text, htext, hb⟩ := List.mem_map.mp hmem
  obtain ⟨branch, hbranch, rfl⟩ := List.mem_map.mp htext
  rw [startsWithCall_of_point (by rw [← hb, trim_emitBranch (h branch hbranch).1]; rfl)]
  simp

end MarkupQuery.Selector

namespace MarkupQuery.Page

open MarkupQuery.Text MarkupQuery.Query MarkupQuery.Selector

variable {page : Page} {context : Context} {at? : Option Handle} {left right selector : String}
  {lefts rights : Matches} {anchor : Anchor} {found found' : List Branch}
  {emit : Branch → List Char} {site? : Option Site}

/-- The query of some branches is run as the texts of the branches with bars between them. -/
def RunsAs (page : Page) (site? : Option Site) (anchor : Anchor) (emit : Branch → List Char)
    (found : List Branch) : Prop :=
  ∃ query, page.scopedQuery (emitted anchor found) site? = .ok (query, .document) ∧
    query.toList = joinWith [' ', '|', ' '] (found.map emit)

/-- If branches are run with bars between them, the branches of two selectors together select what
those of either select. -/
theorem execute_append (hd : page.document.Reachable) (hne : found ≠ []) (hne' : found' ≠ [])
    (hbegins : ∀ branch ∈ found ++ found', Begins (emit branch))
    (hends : ∀ x ∈ (joinWith [' ', '|', ' '] (found.map emit)).getLast?, isBlank x = false)
    (hl : page.RunsAs site? anchor emit found) (hr : page.RunsAs site? anchor emit found')
    (hlist : page.RunsAs site? anchor emit (found ++ found'))
    (hlefts : page.execute (emitted anchor found) site? = .ok lefts)
    (hrights : page.execute (emitted anchor found') site? = .ok rights) :
    ∃ both, page.execute (emitted anchor (found ++ found')) site? = .ok both ∧
      page.setting.source.InOrder both.sites ∧
      ∀ site, site ∈ both.sites ↔ site ∈ lefts.sites ∨ site ∈ rights.sites := by
  obtain ⟨left, hleft, htext⟩ := hl
  obtain ⟨right, hright, htext'⟩ := hr
  obtain ⟨query, hquery, hwhole⟩ := hlist
  obtain ⟨_, _, hscoped, hlefts, -⟩ := execute_eq_ok.mp hlefts
  cases hleft.symm.trans hscoped
  obtain ⟨_, _, hscoped, hrights, -⟩ := execute_eq_ok.mp hrights
  cases hright.symm.trans hscoped
  have hbegin : ∀ branches : List Branch, branches ≠ [] → branches ⊆ found ++ found' →
      Begins (joinWith [' ', '|', ' '] (branches.map emit)) := by
    intro branches hne hsubset
    obtain ⟨first, more, rfl⟩ := List.exists_cons_of_ne_nil hne
    rw [List.map_cons, joinWith_eq_flatMap]
    exact begins_append (hbegins first (hsubset List.mem_cons_self)) _
  -- the query of both is the two queries with a bar between them
  have hjoined : query.toList = left.toList ++ ([' ', '|', ' '] ++ right.toList) := by
    rw [hwhole, htext, htext', List.map_append,
      joinWith_append _ (by simpa using hne) (by simpa using hne')]
  obtain ⟨sites, hsites, hmem⟩ := select_append
    (htext ▸ hbegin found hne (List.subset_append_left _ _))
    (htext' ▸ hbegin found' hne' (List.subset_append_right _ _)) (htext ▸ hends) hjoined
    hlefts hrights
  refine ⟨⟨page.serial, sites⟩, execute_eq_ok.mpr ⟨query, .document, hquery, hsites, rfl⟩, ?_, hmem⟩
  obtain ⟨e, -, -, hvalue⟩ := select_eq_ok.mp hsites
  have hroot : Site.document ∈ Site.all page.setting.source.document :=
    Site.node_mem_all hd.forest .refl
  exact (Site.inOrder_all hd.forest).sublist (evaluate_sublist hd.forest rfl hroot hvalue)

/-- Nothing is put in front of the branches if the query is run on the whole page. -/
theorem runsAs_of_whole (h : ∀ query, page.scopedQuery query site? = .ok (query, .document))
    (anchor : Anchor) (found : List Branch) : page.RunsAs site? anchor (emitBranch anchor) found :=
  ⟨_, h _, toList_query anchor found⟩

/-- At an attached context, its address is put in front of the branches. -/
theorem runsAs_of_context {site : Site} {path : String}
    (hkind : (site.kind page.document == .root) = false)
    (hattached : page.document.isAttached site.id = true)
    (hpath : page.contextPath site = .ok path) (hne : found ≠ [])
    (h : ∀ branch ∈ found, branch ≠ [] ∧ branch.Scanned) :
    page.RunsAs (some site) .context (fun branch => path.toList ++ trimEnd (emitSteps branch))
      found := by
  refine ⟨scope path (emitted .context found), ?_, toList_scope_emitted hne h⟩
  simp [scopedQuery, hkind, callsFirst_emitted hne h, hattached, hpath, bind, Except.bind, pure,
    Except.pure]

theorem contextPath_of_execute {site : Site} (hkind : (site.kind page.document == .root) = false)
    (hattached : page.document.isAttached site.id = true) (hne : found ≠ [])
    (h : ∀ branch ∈ found, branch ≠ [] ∧ branch.Scanned)
    (he : page.execute (emitted .context found) (some site) = .ok lefts) :
    ∃ path, page.contextPath site = .ok path := by
  obtain ⟨query, start, hscoped, -, -⟩ := execute_eq_ok.mp he
  cases hpath : page.contextPath site with
  | ok path => exact ⟨path, rfl⟩
  | error e =>
    simp [scopedQuery, hkind, callsFirst_emitted hne h, hattached, hpath, bind, Except.bind]
      at hscoped

/-- The address does not end the query, and what does is trimmed. -/
theorem scoped_ends (hne : found ≠ []) (h : ∀ branch ∈ found, branch ≠ []) (path : List Char) :
    ∀ x ∈ (joinWith [' ', '|', ' ']
      (found.map fun branch => path ++ trimEnd (emitSteps branch))).getLast?, isBlank x = false := by
  obtain ⟨before, last, rfl⟩ := (List.eq_nil_or_concat found).resolve_left hne
  have hlast : trimEnd (emitSteps last) ≠ [] :=
    (begins_trimEnd (.inl (head_emitSteps (h last (by simp))))).ne_nil
  obtain ⟨-, -, -, hends⟩ := exists_trimEnd (emitSteps last)
  rw [List.concat_eq_append, List.map_append, List.map_singleton, joinWith,
    getLast_intercalate _ _ (by simp [hlast]), List.getLast?_append_of_ne_nil _ hlast]
  exact hends

def anchorFor (below : Bool) : Anchor := if below then .context else .document

theorem compiled_eq_ok {below : Bool} {query : String} : compiled selector below = .ok query ↔
    ∃ c, compile (anchorFor below) selector = .ok c ∧ c.query = query := by
  unfold compiled anchorFor
  cases compile (if below then .context else .document) selector <;> simp

/-- What is known about the branches of a selector that was compiled. -/
structure Compiles (anchor : Anchor) (selector : String) (found : List Branch) : Prop where
  compile_eq : compile anchor selector =
    .ok ⟨found.map fun branch => String.ofList (emitBranch anchor branch)⟩
  ne_nil : found ≠ []
  branches : ∀ branch ∈ found, branch.Grouped ∧ branch.Scanned
  ends : ∀ x ∈ (joinWith [' ', '|', ' '] (found.map (emitBranch anchor))).getLast?,
    isBlank x = false

theorem exists_compiles {c : Compiled} (h : compile anchor selector = .ok c) :
    ∃ found, Compiles anchor selector found ∧ c.query = emitted anchor found := by
  obtain ⟨placed, hplaced, -⟩ := bind_eq_ok.mp h
  obtain ⟨found, hfound, rfl⟩ := compile_ok h hplaced
  have hspells := spells_branches hfound
  have hscanned := scanned_of_spells hspells (by simpa using (tokenize_ok hplaced).1)
  exact ⟨found, ⟨h, hspells.ne_nil,
    fun branch hbranch => ⟨hspells.grouped branch hbranch, hscanned branch hbranch⟩,
    emitted_ends hspells hplaced anchor⟩, rfl⟩

theorem Compiles.parts (h : Compiles anchor selector found) :
    ∀ branch ∈ found, branch ≠ [] ∧ branch.Scanned := by
  intro branch hbranch
  obtain ⟨hgrouped, hscanned⟩ := h.branches branch hbranch
  obtain ⟨compound, rest, rfl⟩ := hgrouped.first
  exact ⟨by simp, hscanned⟩

theorem emitted_append (hl : Tight left.toList) (hr : Tight right.toList)
    (h : Compiles anchor left found) (h' : Compiles anchor right found') :
    ∃ c, compile anchor (left ++ ", " ++ right) = .ok c ∧
      c.query = emitted anchor (found ++ found') := by
  refine ⟨_, compile_list hl hr h.compile_eq h'.compile_eq, ?_⟩
  rw [emitted, List.map_append]

theorem run_selectElements_emitted {sites : Matches}
    (hcontext : StateT.run (queryContext context) page = (.ok at?, page))
    (h : StateT.run (selectElements selector context) page = (.ok sites, page)) :
    ∃ found, Compiles (anchorFor at?.isSome) selector found ∧
      page.execute (emitted (anchorFor at?.isSome) found) (at?.map Handle.site) = .ok sites := by
  obtain ⟨_, query, hat, hquery, hsites⟩ := run_selectElements_eq_ok.mp h
  cases hcontext.symm.trans hat
  obtain ⟨c, hc, rfl⟩ := compiled_eq_ok.mp hquery
  obtain ⟨found, hfound, hemitted⟩ := exists_compiles hc
  exact ⟨found, hfound, hemitted ▸ hsites⟩

/-- The branches of two selectors together select what those of either select. -/
theorem execute_list (hd : page.document.Reachable)
    (hattached : ∀ site ∈ site?, page.document.isAttached site.id = true)
    (h : Compiles (anchorFor site?.isSome) left found)
    (h' : Compiles (anchorFor site?.isSome) right found')
    (hlefts : page.execute (emitted (anchorFor site?.isSome) found) site? = .ok lefts)
    (hrights : page.execute (emitted (anchorFor site?.isSome) found') site? = .ok rights) :
    ∃ both, page.execute (emitted (anchorFor site?.isSome) (found ++ found')) site? = .ok both ∧
      page.setting.source.InOrder both.sites ∧
      ∀ site, site ∈ both.sites ↔ site ∈ lefts.sites ∨ site ∈ rights.sites := by
  have hbegins : ∀ anchor, ∀ branch ∈ found ++ found', Begins (emitBranch anchor branch) :=
    fun anchor branch hbranch => begins_emitBranch anchor <|
      (List.mem_append.mp hbranch).elim (fun hb => (h.branches branch hb).1)
        fun hb => (h'.branches branch hb).1
  have hwhole (hs : ∀ query, page.scopedQuery query site? = .ok (query, .document)) :=
    execute_append hd h.ne_nil h'.ne_nil (hbegins _) h.ends (runsAs_of_whole hs _ _)
      (runsAs_of_whole hs _ _) (runsAs_of_whole hs _ _) hlefts hrights
  cases site? with
  | none => exact hwhole fun _ => rfl
  | some site =>
    cases hkind : (site.kind page.document == .root) with
    | true => exact hwhole fun _ => by simp [scopedQuery, hkind]
    | false =>
      have hsite := hattached site rfl
      obtain ⟨path, hpath⟩ := contextPath_of_execute hkind hsite h.ne_nil h.parts hlefts
      have hparts : ∀ branch ∈ found ++ found', branch ≠ [] ∧ branch.Scanned :=
        fun branch hbranch => (List.mem_append.mp hbranch).elim (h.parts branch) (h'.parts branch)
      exact execute_append hd h.ne_nil h'.ne_nil
        (fun branch _ => begins_append (.inl (head_contextPath hpath)) _)
        (scoped_ends h.ne_nil (fun branch hbranch => (h.parts branch hbranch).1) _)
        (runsAs_of_context hkind hsite hpath h.ne_nil h.parts)
        (runsAs_of_context hkind hsite hpath h'.ne_nil h'.parts)
        (runsAs_of_context hkind hsite hpath (by simp [h.ne_nil]) hparts) hlefts hrights

/-- A list of two selectors finds the nodes that either of them finds, each once and in document
order, on the whole page and at an attached context. -/
theorem select_list (hd : page.document.Reachable)
    (hcontext : StateT.run (queryContext context) page = (.ok at?, page))
    (hattached : ∀ h ∈ at?, page.document.isAttached h.site.id = true)
    (hl : Tight left.toList) (hr : Tight right.toList)
    (hlefts : StateT.run (selectElements left context) page = (.ok lefts, page))
    (hrights : StateT.run (selectElements right context) page = (.ok rights, page)) :
    ∃ both, StateT.run (selectElements (left ++ ", " ++ right) context) page = (.ok both, page) ∧
      both.serial = page.serial ∧ page.setting.source.InOrder both.sites ∧ both.sites.Nodup ∧
      ∀ site, site ∈ both.sites ↔ site ∈ lefts.sites ∨ site ∈ rights.sites := by
  obtain ⟨found, hfound, hlefts⟩ := run_selectElements_emitted hcontext hlefts
  obtain ⟨found', hfound', hrights⟩ := run_selectElements_emitted hcontext hrights
  obtain ⟨c, hc, hlist⟩ := emitted_append hl hr hfound hfound'
  have hsome : (at?.map Handle.site).isSome = at?.isSome := Option.isSome_map
  rw [← hsome] at hfound hfound' hlefts hrights hlist
  obtain ⟨both, hboth, horder, hmem⟩ :=
    execute_list hd (by simpa using hattached) hfound hfound' hlefts hrights
  refine ⟨both, run_selectElements_eq_ok.mpr ⟨at?, c.query, hcontext,
    compiled_eq_ok.mpr ⟨c, hc, rfl⟩, hlist ▸ hboth⟩, serial_of_execute hboth, horder, ?_, hmem⟩
  refine horder.imp fun {a b} hbefore heq => ?_
  subst heq
  exact Ranked.precedes_irrefl _ _ hbefore

theorem reachable_of_parse {serial : Nat} {markup : String} {options : Options}
    (h : Page.parse serial markup options = .ok page) : page.document.Reachable := by
  unfold Page.parse at h
  split at h
  · rename_i document hparse
    obtain rfl := Except.ok.inj h
    exact .parse hparse
  · split at h
    · cases h
    · obtain rfl := Except.ok.inj h
      exact .empty

def listedPage : Page := .ofMarkup "<r><a class='x'/><b title='p, q | r'/></r>"

/-- The first element is found by two branches of the list, the second one by the value. -/
theorem select_list_listedPage : listedPage.document.Reachable ∧
    listedPage.contextPath (.node 1) = .ok "/r" ∧
    StateT.run (selectElements "a, .x" (.node ⟨0, .node 1⟩)) listedPage =
      (.ok ⟨0, [.node 2]⟩, listedPage) ∧
    StateT.run (selectElements "[title='p, q | r']" (.node ⟨0, .node 1⟩)) listedPage =
      (.ok ⟨0, [.node 3]⟩, listedPage) ∧
    ∃ both, StateT.run (selectElements ("a, .x" ++ ", " ++ "[title='p, q | r']")
        (.node ⟨0, .node 1⟩)) listedPage = (.ok both, listedPage) ∧
      ∀ site, site ∈ both.sites ↔ site ∈ [Site.node 2] ∨ site ∈ [Site.node 3] := by
  have hd : listedPage.document.Reachable :=
    reachable_of_parse (parse_ofMarkup (by decide +kernel))
  have hcontext : StateT.run (queryContext (.node ⟨0, .node 1⟩)) listedPage =
      (.ok (some ⟨0, .node 1⟩), listedPage) :=
    Action.run_read_eq_ok.mpr ⟨by decide +kernel, rfl⟩
  have hattached : ∀ h ∈ some (⟨0, .node 1⟩ : Handle),
      listedPage.document.isAttached h.site.id = true := by decide +kernel
  have hquery : compiled "a, .x" true = .ok
      ".//a | .//*[contains(concat(' ', normalize-space(@class), ' '), ' x ')]" ∧
      compiled "[title='p, q | r']" true = .ok ".//*[@title='p, q | r']" := by decide +kernel
  have hlefts : StateT.run (selectElements "a, .x" (.node ⟨0, .node 1⟩)) listedPage =
      (.ok ⟨0, [.node 2]⟩, listedPage) :=
    run_selectElements_eq_ok.mpr ⟨_, _, hcontext, hquery.1, by decide +kernel⟩
  have hrights : StateT.run (selectElements "[title='p, q | r']" (.node ⟨0, .node 1⟩)) listedPage =
      (.ok ⟨0, [.node 3]⟩, listedPage) :=
    run_selectElements_eq_ok.mpr ⟨_, _, hcontext, hquery.2, by decide +kernel⟩
  obtain ⟨both, hboth, -, -, -, hmem⟩ := select_list hd hcontext hattached (by decide +kernel)
    (by decide +kernel) hlefts hrights
  exact ⟨hd, by decide +kernel, hlefts, hrights, both, hboth, hmem⟩

end MarkupQuery.Page
