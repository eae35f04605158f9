import MarkupQuery.Proofs.Page.Agreement
import MarkupQuery.Proofs.Page.LeafTexts
import MarkupQuery.Proofs.Page.LegiblePaths
import MarkupQuery.Proofs.Query.Failures

namespace MarkupQuery.Page

open MarkupQuery.Text MarkupQuery.Query MarkupQuery.Tree Reader

variable {head b c r : List Char} {texts : List (List Char)} {setting : Setting} {focus : Focus}
  {context query path markup : String} {page : Page} {site : Site} {sites : List Site}

section Ends

theorem trimEnd_joinWith (h : ∀ w ∈ texts, trimEnd w = w ∧ w ≠ []) (between : List Char) :
    trimEnd (joinWith between texts) = joinWith between texts := by
  induction texts with
  | nil => rfl
  | cons first texts ih =>
    obtain ⟨hfirst, hrest⟩ := List.forall_mem_cons.mp h
    by_cases hmore : texts = []
    · subst hmore
      simpa [joinWith] using hfirst.1
    · have hne : joinWith between texts ≠ [] := by
        obtain ⟨second, texts, rfl⟩ := List.exists_cons_of_ne_nil hmore
        rw [joinWith_eq_flatMap]
        simp [(hrest second List.mem_cons_self).2]
      rw [joinWith_cons _ _ hmore, ← List.append_assoc, trimEnd_append _ (by rwa [ih hrest]),
        ih hrest]

/-- Below a context a branch ends as it did. -/
theorem suffix_scopeBranch (h : BranchSelects setting focus b) (hpoint : b ≠ ['.'])
    (nested : List Char → List Char) (head : List Char) :
    ∃ before u, scopeBranch nested head b = before ++ u ∧ u ≠ [] ∧ u <:+ b := by
  have hne : b ≠ [] := by
    rintro rfl
    obtain ⟨e, found, hb, -⟩ := h
    have hread := hb.read
    cases hread
  cases hparen : parenthesized? b with
  | some found =>
    obtain ⟨x, rfl⟩ := eq_cons_of_parenthesized hparen
    obtain ⟨inner, y, rfl, hinner, -⟩ := selects_of_parentheses h
    rw [scopeBranch_of_parenthesized nested hinner]
    exact ⟨_, ')' :: y, rfl, by simp, ⟨'(' :: inner, by simp⟩⟩
  | none =>
    unfold scopeBranch
    rw [if_neg (by simpa using hpoint), hparen]
    dsimp only
    split
    · exact ⟨head, _, rfl, by simp, ⟨['.'], rfl⟩⟩
    · exact ⟨head, _, rfl, by simp, List.suffix_rfl⟩
    · exact ⟨head ++ ['/'], b, by simp, hne, List.suffix_rfl⟩

theorem trimEnd_scopeBranch (h : BranchSelects setting focus b)
    (hpoint : b = ['.'] → trimEnd head = head ∧ head ≠ []) (nested : List Char → List Char) :
    trimEnd (scopeBranch nested head b) = scopeBranch nested head b ∧
      scopeBranch nested head b ≠ [] := by
  by_cases hb : b = ['.']
  · have hscope : scopeBranch nested head b = head := by simp [scopeBranch, hb]
    rw [hscope]
    exact hpoint hb
  · obtain ⟨before, u, hscope, hne, hsuffix⟩ := suffix_scopeBranch h hb nested head
    obtain ⟨e, found, hbranch, -⟩ := h
    have hu : trimEnd u = u := by
      refine trimEnd_of_last fun x hx => ?_
      obtain ⟨w, -, -, hlast⟩ := exists_trimEnd b
      rw [hbranch.trimEnd_eq] at hlast
      obtain ⟨front, rfl⟩ := hsuffix
      exact hlast x (by rwa [List.getLast?_append_of_ne_nil _ hne])
    rw [hscope, trimEnd_append before (by rwa [hu]), hu]
    exact ⟨rfl, by simp [hne]⟩

theorem exists_parse_iff : (∃ e, Query.parse query = .ok e) ↔
    rest expression (trim query.toList) = some [] := by
  simp only [parse_eq_ok, rest_eq_some]

theorem trim_of_leads (h : Leads c) : trim c = trimEnd c := by
  rw [trim, trimStart_of_head h.head_not_blank]

/-- What stands in front of a bar is not trimmed. -/
theorem trim_bar (h : Leads c) (s : List Char) :
    ∃ t, Closed t ∧ trim (c ++ ([' ', '|', ' '] ++ s)) = c ++ t := by
  have hbar := trimEnd_append_of_last (last_concat (show isBlank '|' = false from rfl) (c ++ [' ']))
    (' ' :: s)
  refine ⟨[' ', '|'] ++ trimEnd (' ' :: s), fun _ hc => .inl (Option.some.inj hc).symm, ?_⟩
  rw [trim_of_leads (h.append _)]
  simpa using hbar

/-- Of a text that does not end in a blank an expression leaves nothing or more than spaces. -/
theorem eq_nil_of_rest (h : rest expression c = some r) (hc : trimEnd c = c)
    (hr : skipSpace r = []) : r = [] := by
  obtain ⟨e, he⟩ := rest_eq_some.mp h
  obtain ⟨d, rfl, -⟩ := balances_expression c e r he
  obtain ⟨w, hw, hspaces⟩ := exists_spaces r
  rw [hr, List.append_nil] at hw
  subst hw
  have hlength := congrArg List.length hc
  rw [trimEnd_append_blanks fun x hx => isBlank_of_isSpace x (hspaces x hx)] at hlength
  obtain ⟨w, hw, -⟩ := exists_trimEnd d
  have hle := congrArg List.length hw
  simp only [List.length_append] at hlength hle
  exact List.eq_nil_of_length_eq_zero (by omega)

end Ends

section Scopes

theorem branchLeaves_ne_nil {nested : List Char → List (List Char)}
    (h : ∀ inner, nested inner ≠ []) (b : List Char) : branchLeaves nested b ≠ [] := by
  unfold branchLeaves
  split
  · exact h _
  · simp

theorem leavesUpTo_ne_nil (depth : Nat) (query : List Char) : leavesUpTo depth query ≠ [] := by
  induction depth generalizing query with
  | zero => simp [leavesUpTo]
  | succ depth ih =>
    obtain ⟨b, hb⟩ := List.exists_mem_of_ne_nil _ (branchesFrom_ne_nil {} query)
    obtain ⟨leaf, hleaf⟩ := List.exists_mem_of_ne_nil _ (branchLeaves_ne_nil ih (trim b))
    exact List.ne_nil_of_mem (List.mem_flatMap.mpr ⟨trim b, List.mem_map_of_mem hb, hleaf⟩)

/-- A query with one branch is that branch. -/
theorem eq_of_branchesFrom {n : Nesting} (h : branchesFrom n c = [b]) : b = c := by
  induction c generalizing n b with
  | nil => exact (List.singleton_inj.mp h).symm
  | cons x c ih =>
    cases hx : n.endsBranch x with
    | true =>
      rw [branchesFrom, hx] at h
      exact absurd (List.cons.inj h).2 (branchesFrom_ne_nil n c)
    | false =>
      rw [branchesFrom_cons hx] at h
      cases hbranches : branchesFrom (n.after x) c with
      | nil => exact absurd hbranches (branchesFrom_ne_nil _ _)
      | cons first more =>
        rw [hbranches] at h
        obtain ⟨rfl, rfl⟩ := List.cons.inj h
        rw [ih hbranches]

theorem branches_of_point (h : trim query.toList = ['.']) :
    (branches query.toList).map trim = [['.']] := by
  rw [← branches_trim, h]
  rfl

variable (h : Selects setting focus query.toList)

include h

/-- Behind a front a query is read unless one of its leaves is misplaced. -/
theorem parse_scope_of_front (hfront : Front context.toList)
    (hlast : trimEnd context.toList = context.toList) :
    (∃ e, Query.parse (scope context query) = .ok e) ↔ ∀ leaf ∈ leaves query, ¬ Misplaced leaf := by
  have hsettles : Settles Misplaced (leaves query) (scope context query).toList := by
    rw [scope, String.toList_ofList]
    exact settles_scopeUpTo (fun b hb hleaf nested => hfront.settles_leaf hb hleaf nested)
      (Nat.lt_succ_self _) h
  have htrim : trimEnd (scope context query).toList = (scope context query).toList := by
    rw [toList_scope]
    refine trimEnd_joinWith (fun w hw => ?_) _
    obtain ⟨b, hb, rfl⟩ := List.mem_map.mp hw
    refine trimEnd_scopeBranch (h b hb) (fun _ => ⟨hlast, fun hnil => ?_⟩) _
    have hslash := hfront.slash
    rw [hnil] at hslash
    cases hslash
  rw [exists_parse_iff]
  rcases hsettles with ⟨hgood, hfits⟩ | ⟨⟨leaf, hmem, hbad⟩, hsticks⟩
  · obtain ⟨r, hread, hskip⟩ := hfits.reads [] closed_nil
    rw [List.append_nil] at hread
    rw [afterOperations_of_head rfl] at hskip
    rw [trim_of_leads hfits.leads, htrim, hread, eq_nil_of_rest hread htrim hskip]
    exact iff_of_true rfl hgood
  · refine iff_of_false (fun hread => ?_) fun hgood => hgood leaf hmem hbad
    rw [trim_of_leads hsticks.leads, htrim] at hread
    obtain ⟨c, hc, -⟩ := hsticks.reads [] [] closed_nil (by rwa [List.append_nil])
    cases hc

/-- Behind a text that ends in a blank other than a space no branch is read to its end. -/
theorem sticks_of_blank_context {e : Expr} {x : Char} {s : List Char}
    (hslash : head.head? = some '/') (hread : expression head = some (e, []))
    (hx : isBlank x = true) (hspace : isSpace x = false) :
    ∀ b ∈ (branches query.toList).map trim,
      Sticks (scopeBranch (scopeUpTo (head ++ x :: s) query.toList.length) (head ++ x :: s) b) := by
  intro b hb
  have hleaf : ∀ b, BranchSelects setting focus b → parenthesized? b = none → ∀ nested,
      Settles (fun _ => True) [b] (scopeBranch nested (head ++ x :: s) b) := fun b _ hleaf nested =>
    settles_leaf_of_blank hslash hread hx hspace hleaf nested
  have hlength : b.length ≤ query.toList.length := by
    obtain ⟨branch, hbranch, rfl⟩ := List.mem_map.mp hb
    exact (length_trim_le branch).trans (length_branch {} _ branch hbranch)
  have hsettles := settles_branch hleaf (fun inner hinner hselects =>
    settles_scopeUpTo hleaf (hinner.trans_le hlength) hselects) (h b hb)
  rcases hsettles with ⟨hnone, -⟩ | ⟨-, hsticks⟩
  · obtain ⟨leaf, hmem⟩ := List.exists_mem_of_ne_nil _
      (branchLeaves_ne_nil (leavesUpTo_ne_nil query.toList.length) b)
    exact absurd trivial (hnone leaf hmem)
  · exact hsticks

/-- Behind a text that ends in a blank other than a space only a point is read. -/
theorem parse_scope_of_blank {e : Expr} {x : Char} {s : List Char}
    (hslash : head.head? = some '/') (hread : expression head = some (e, []))
    (hx : isBlank x = true) (hspace : isSpace x = false) (hcontext : context.toList = head ++ x :: s)
    (htrim : trim context.toList = head) :
    (∃ e, Query.parse (scope context query) = .ok e) ↔ trim query.toList = ['.'] := by
  by_cases hpoint : trim query.toList = ['.']
  · refine iff_of_true ⟨e, ?_⟩ hpoint
    rw [parse_eq_ok, toList_scope, branches_of_point hpoint]
    simpa [joinWith, scopeBranch, htrim] using hread
  · refine iff_of_false (fun hparse => ?_) hpoint
    have hsticks := sticks_of_blank_context h hslash hread hx hspace (s := s)
    obtain ⟨b, more, hbranches⟩ : ∃ b more, (branches query.toList).map trim = b :: more := by
      refine List.exists_cons_of_ne_nil ?_
      simpa [branches] using branchesFrom_ne_nil {} query.toList
    have hb := h b (hbranches ▸ List.mem_cons_self)
    rw [← hcontext, hbranches] at hsticks
    have hfirst := hsticks b List.mem_cons_self
    rw [exists_parse_iff, toList_scope, hbranches, List.map_cons] at hparse
    generalize scopeUpTo context.toList query.toList.length = nested at hfirst hparse
    -- the first branch stands in front of the end of the query or of a bar
    obtain ⟨t, ht, htext⟩ : ∃ t, Closed t ∧ trim (joinWith [' ', '|', ' ']
        (scopeBranch nested context.toList b :: more.map (scopeBranch nested context.toList))) =
          scopeBranch nested context.toList b ++ t := by
      by_cases hmore : more = []
      · subst hmore
        have hne : b ≠ ['.'] := by
          rintro rfl
          obtain ⟨branch, hbranch, hpoint'⟩ := List.map_eq_singleton_iff.mp hbranches
          rw [eq_of_branchesFrom hbranch] at hpoint'
          exact hpoint hpoint'
        refine ⟨[], closed_nil, ?_⟩
        rw [List.map_nil, joinWith, List.intercalate_singleton, trim_of_leads hfirst.leads,
          List.append_nil]
        exact (trimEnd_scopeBranch hb (fun he => absurd he hne) nested).1
      · rw [joinWith_cons _ _ (by simpa using hmore)]
        exact trim_bar hfirst.leads _
    rw [htext] at hparse
    obtain ⟨c, hc, -⟩ := hfirst.reads t [] ht hparse
    cases hc

end Scopes

section Addresses

/-- A class of characters without a space in it and without a slash. -/
theorem not_space_of_class {p : Char → Bool} {x : Char}
    (hp : [' ', '\t', '\r', '\n', '/'].any p = false) (hx : p x = true) :
    isSpace x = false ∧ x ≠ '/' := by
  have hne : ∀ d ∈ [' ', '\t', '\r', '\n', '/'], x ≠ d := by
    rintro d hd rfl
    exact List.any_eq_false.mp hp x hd hx
  simp only [List.forall_mem_cons] at hne
  simp [isSpace, hne]

/-- The segment of an element ends with its name or with a position. -/
theorem Segment.exists_end {name : String} (hname : Xml.IsName name)
    (qualifier uri : Option String) (position : Option Nat) : ∃ text,
      (Segment.render ⟨.element qualifier name uri, position⟩).toList =
        qualifierText qualifier ++ text ∧ text ≠ [] ∧ ∀ x ∈ text, isSpace x = false ∧ x ≠ '/' := by
  have hne : name.toList ≠ [] := by
    intro hnil
    have hstarts := hname.starts
    rw [hnil] at hstarts
    cases hstarts
  have hchars : ∀ x ∈ name.toList, isSpace x = false ∧ x ≠ '/' := fun x hx =>
    not_space_of_class (by decide) (hname.continues x hx)
  cases position with
  | none =>
    refine ⟨name.toList, ?_, hne, hchars⟩
    simpa [Segment.render] using SegmentTest.toList_render_element qualifier name uri
  | some k =>
    refine ⟨name.toList ++ '[' :: ((toString k).toList ++ [']']), ?_, by simp, ?_⟩
    · have htest := SegmentTest.toList_render_element qualifier name uri
      simp [Segment.render, htest]
    · have hdigits : ∀ x ∈ (toString k).toList, isSpace x = false ∧ x ≠ '/' := by
        rw [Nat.toString_eq_repr, Nat.toList_repr]
        exact fun x hx =>
          not_space_of_class (by decide) (Nat.isDigit_of_mem_toDigits (by decide) (by decide) hx)
      simp only [List.forall_mem_append, List.forall_mem_cons]
      exact ⟨hchars, by decide, hdigits, by decide, by simp⟩

/-- The path of an element is written from the segments of what is above it and one of its own, under
its name. -/
theorem exists_segments_of_contextPath {kids : NodeId → List NodeId}
    (hforest : Forest page.document kids) (hkind : site.kind page.document = .element)
    (hpath : page.contextPath site = .ok path) :
    ∃ (e : Element) (above : List Segment) (qualifier : Option String),
      page.document.payload site.id = .element e ∧
      path = renderAddress (above ++
        [⟨.element qualifier e.name e.namespaceUri, page.document.position? site.id⟩]) := by
  obtain ⟨id, index⟩ := site
  obtain ⟨e, rfl, hpayload⟩ : ∃ e, index = none ∧ page.document.payload id = .element e := by
    cases index with
    | some i => cases hkind
    | none =>
      cases hpayload : page.document.payload id with
      | element e => exact ⟨e, rfl, rfl⟩
      | _ => simp [Site.kind, hpayload] at hkind
  obtain ⟨above, habove⟩ := hforest.exists_ancestors id
  have haddress : page.document.address id none =
      (above.filterMap page.document.segment?).reverse ++
        [⟨.element e.qualifier e.name e.namespaceUri, page.document.position? id⟩] := by
    simp [Document.address, habove, Document.segment?, hpayload, Document.segmentTest?]
  obtain ⟨used, hused, rfl⟩ := map_eq_ok.mp hpath
  rw [haddress, List.mapM_append] at hused
  obtain ⟨first, -, hbehind⟩ := bind_eq_ok.mp hused
  obtain ⟨rest, hrest, he⟩ := bind_eq_ok.mp hbehind
  obtain rfl : first ++ rest = used := Except.ok.inj he
  cases mapM_eq_ok.mp hrest with
  | @cons _ last _ _ hlast hnil =>
    cases hnil
    -- no more than the prefix is changed to what the page knows it by
    unfold usableSegment at hlast
    split at hlast
    · exact ⟨e, first, e.qualifier, hpayload, by rw [Except.ok.inj hlast]⟩
    · obtain ⟨qualifier, -, rfl⟩ := map_eq_ok.mp hlast
      exact ⟨e, first, qualifier, hpayload, rfl⟩

/-- The path of an element ends with the name of the element or with a position. -/
theorem exists_end_of_contextPath (hparse : Document.parse markup = .ok page.document)
    (hkind : site.kind page.document = .element) (hpath : page.contextPath site = .ok path) :
    ∃ before text, path.toList = before ++ text ∧ (∀ x ∈ before.getLast?, isBlank x = false) ∧
      text ≠ [] ∧ ∀ x ∈ text, isSpace x = false ∧ x ≠ '/' := by
  obtain ⟨kids, hforest⟩ := Forest.exists_parse hparse
  obtain ⟨e, above, qualifier, hpayload, rfl⟩ := exists_segments_of_contextPath hforest hkind hpath
  have hname : Xml.IsName e.name :=
    (Document.Every.of_parse hparse fun he => he.name) site.id e hpayload
  obtain ⟨text, htext, hne, hchars⟩ :=
    Segment.exists_end hname qualifier e.namespaceUri (page.document.position? site.id)
  refine ⟨slashedSegments above ++ '/' :: qualifierText qualifier, text, ?_, ?_, hne, hchars⟩
  · rw [toList_renderAddress_of_ne_nil (by simp), slashedSegments, slashed, List.map_append,
      List.flatMap_append]
    simp [htext, slashed]
  · rw [List.getLast?_append_of_ne_nil _ (by simp)]
    cases qualifier with
    | none => exact last_concat rfl []
    | some q => exact last_concat rfl ('/' :: q.toList)

theorem front_of_contextPath (hparse : Document.parse markup = .ok page.document)
    (hkind : site.kind page.document = .element) (hpath : page.contextPath site = .ok path)
    (hread : ∃ e, Query.parse path = .ok e) (hlast : trimEnd path.toList = path.toList) :
    Front path.toList := by
  have hslash := head_contextPath hpath
  obtain ⟨e, he⟩ := hread
  obtain ⟨before, text, htext, -, hne, hchars⟩ := exists_end_of_contextPath hparse hkind hpath
  rw [parse_eq_ok, trim_of_leads (.inl hslash), hlast] at he
  refine ⟨hslash, ⟨e, he⟩, fun hend => ?_⟩
  rw [htext, List.getLast?_append_of_ne_nil _ hne] at hend
  exact (hchars '/' (List.mem_of_getLast? hend)).2 rfl

/-- What is trimmed off the path of an element is no space. -/
theorem exists_blank_of_contextPath (hparse : Document.parse markup = .ok page.document)
    (hkind : site.kind page.document = .element) (hpath : page.contextPath site = .ok path)
    (hlast : trimEnd path.toList ≠ path.toList) : ∃ x s,
      path.toList = trimEnd path.toList ++ x :: s ∧ isBlank x = true ∧ isSpace x = false := by
  obtain ⟨before, text, htext, hbefore, -, hchars⟩ := exists_end_of_contextPath hparse hkind hpath
  obtain ⟨w, hw, hblank, -⟩ := exists_trimEnd text
  have htrim : trimEnd path.toList = before ++ trimEnd text := by
    rw [htext, trimEnd_append_of_last hbefore]
  cases w with
  | nil =>
    rw [List.append_nil] at hw
    rw [htrim, ← hw, ← htext] at hlast
    exact absurd rfl hlast
  | cons x s =>
    refine ⟨x, s, ?_, hblank x List.mem_cons_self, (hchars x ?_).1⟩
    · rw [htrim, List.append_assoc, ← hw, htext]
    · rw [hw]
      simp

end Addresses

section Execution

theorem execute_unparsed_iff {asked : String} {start : Site}
    (h : page.scopedQuery query (some site) = .ok (asked, start)) :
    (∃ text written rest,
      page.execute query (some site) = .error (.query text (.unparsed written rest))) ↔
        ¬ ∃ e, Query.parse asked = .ok e := by
  rw [← select_unparsed_iff page.setting start]
  unfold execute
  rw [h]
  cases hselect : select page.setting start asked <;>
    simp [bind, Except.bind, hselect, Except.mapError, pure, Except.pure]

/-- A query that selects nodes at an element of a document from markup fails to be read when it is
run below the element, whose path is a query, exactly if no branch starts with a function call and one
of its leaves is a slash alone or starts with a call, or if the path loses a blank at its end when it
is trimmed and the query is not a point. -/
theorem execute_unread_iff (hparse : Document.parse markup = .ok page.document)
    (hkind : site.kind page.document = .element)
    (hattached : page.document.isAttached site.id = true)
    (hpath : page.contextPath site = .ok path) (hread : ∃ e, Query.parse path = .ok e)
    (hselect : select page.setting site query = .ok sites) :
    (∃ text written rest,
      page.execute query (some site) = .error (.query text (.unparsed written rest))) ↔
        callsFirst query = false ∧
          ((∃ leaf ∈ leaves query, Misplaced leaf) ∨
            (trimEnd path.toList ≠ path.toList ∧ trim query.toList ≠ ['.'])) := by
  have hroot : (site.kind page.document == .root) = false := by
    rw [hkind]
    rfl
  have hselects := selects_of_select hselect
  cases hcall : callsFirst query with
  | true =>
    have hscoped : page.scopedQuery query (some site) = .ok (query, site) := by
      simp [scopedQuery, hroot, hcall]
    rw [execute_unparsed_iff hscoped]
    obtain ⟨e, he, -⟩ := select_eq_ok.mp hselect
    simp [he]
  | false =>
    have hscoped : page.scopedQuery query (some site) = .ok (scope path query, .document) := by
      simp [scopedQuery, hroot, hcall, hattached, hpath, bind, Except.bind, pure, Except.pure]
    rw [execute_unparsed_iff hscoped]
    -- a blank that ends the path is lost where the path ends the query
    by_cases hlast : trimEnd path.toList = path.toList
    · have hfront := front_of_contextPath hparse hkind hpath hread hlast
      rw [parse_scope_of_front hselects hfront hlast]
      simp only [hlast, not_forall, not_not, exists_prop, ne_eq, not_true_eq_false, false_and,
        or_false, true_and]
    · obtain ⟨x, s, hcontext, hx, hspace⟩ := exists_blank_of_contextPath hparse hkind hpath hlast
      have hslash := head_contextPath hpath
      have hleads : Leads path.toList := .inl hslash
      obtain ⟨e, he⟩ := hread
      rw [parse_eq_ok, trim_of_leads hleads] at he
      have hhead : (trimEnd path.toList).head? = some '/' := by
        rwa [head_trimEnd hleads.head_not_blank]
      rw [parse_scope_of_blank hselects hhead he hx hspace hcontext (trim_of_leads hleads)]
      -- only a point leaves the path at the end of the query
      by_cases hpoint : trim query.toList = ['.']
      · have hleaves : leaves query = [['.']] := by
          rw [leaves, leavesUpTo, branches_of_point hpoint]
          rfl
        have hplaced : ¬ Misplaced ['.'] := by
          unfold Misplaced
          decide
        simp [hpoint, hleaves, hplaced]
      · simp [hpoint, hlast]

def nestedMarkup : String := "<r><a id='x'/></r>"

def nestedPage : Page where
  serial := 0
  document := .ofMarkup nestedMarkup

theorem nestedPage_values : (Document.parse nestedMarkup).isOk = true ∧
    Site.kind nestedPage.document (.node 2) = .element ∧
    nestedPage.document.isAttached 2 = true ∧
    nestedPage.contextPath (.node 2) = .ok "/r/a" := by decide +kernel

theorem parse_nestedMarkup : Document.parse nestedMarkup = .ok nestedPage.document := by
  rw [Document.parse_ofMarkup nestedPage_values.1, nestedPage]

/-- At the inner element a call selects that element, with parentheses around it or without. But with
parentheses it is put behind the path of the element, where it is not read. -/
theorem parenthesized_call_unread :
    Document.parse nestedMarkup = .ok nestedPage.document ∧
      Site.kind nestedPage.document (.node 2) = .element ∧
      nestedPage.document.isAttached 2 = true ∧
      nestedPage.contextPath (.node 2) = .ok "/r/a" ∧
      (∃ e, Query.parse "/r/a" = .ok e) ∧
      select nestedPage.setting (.node 2) "(id('x'))[1]" = .ok [.node 2] ∧
      nestedPage.execute "id('x')[1]" (some (.node 2)) = .ok ⟨0, [.node 2]⟩ ∧
      nestedPage.execute "(id('x'))[1]" (some (.node 2)) =
        .error (.query "(/r/a/id('x'))[1]" (.unparsed "(/r/a/id('x'))[1]" none)) := by
  obtain ⟨-, hkind, hattached, hpath⟩ := nestedPage_values
  refine ⟨parse_nestedMarkup, hkind, hattached, hpath, ⟨_, rfl⟩, ?_⟩
  decide +kernel

/-- A slash alone is not read below the inner element, and a path in parentheses is. -/
theorem execute_unread_iff_nestedPage :
    select nestedPage.setting (.node 2) "/" = .ok [.document] ∧
      (∃ text written rest, nestedPage.execute "/" (some (.node 2)) =
        .error (.query text (.unparsed written rest))) ∧
      select nestedPage.setting (.node 2) "(..)|." = .ok [.node 1, .node 2] ∧
      ¬ ∃ text written rest, nestedPage.execute "(..)|." (some (.node 2)) =
        .error (.query text (.unparsed written rest)) := by
  obtain ⟨-, hkind, hattached, hpath⟩ := nestedPage_values
  have hread : ∃ e, Query.parse "/r/a" = .ok e := ⟨_, rfl⟩
  have hvalues : select nestedPage.setting (.node 2) "/" = .ok [.document] ∧
      select nestedPage.setting (.node 2) "(..)|." = .ok [.node 1, .node 2] ∧
      callsFirst "/" = false ∧ leaves "/" = [['/']] ∧
      leaves "(..)|." = [['.', '.'], ['.']] ∧
      ∀ leaf ∈ [['.', '.'], ['.']], leaf ≠ ['/'] ∧ startsWithCall leaf = false := by decide +kernel
  obtain ⟨hslash, hunion, hcalls, hleaf, hleaves, hgood⟩ := hvalues
  have hunread := execute_unread_iff parse_nestedMarkup hkind hattached hpath hread hslash
  have hplaced := execute_unread_iff parse_nestedMarkup hkind hattached hpath hread hunion
  refine ⟨hslash, hunread.mpr ⟨hcalls, .inl ⟨['/'], by simp [hleaf], .inl rfl⟩⟩, hunion,
    fun herror => ?_⟩
  rcases (hplaced.mp herror).2 with ⟨leaf, hleaf, hmisplaced⟩ | ⟨htrim, -⟩
  · rw [hleaves] at hleaf
    obtain ⟨hne, hcall⟩ := hgood leaf hleaf
    rcases hmisplaced with he | he
    · exact hne he
    · rw [hcall] at he
      cases he
  · exact htrim rfl

end Execution

end MarkupQuery.Page
