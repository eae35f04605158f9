import MarkupQuery.Proofs.Page.Entering

namespace MarkupQuery

open MarkupQuery.Tree MarkupQuery.Tree.Document

def Context.IsOn (page : Page) (context : Context) : Prop :=
  ∀ source ∈ context.sources, source.serial = page.serial

namespace Page

/-- `later` is `page` after the element `id` and all elements below it were put into a namespace. No
link changes, of a node in the subtree no more than its prefix and namespace, and of the
declarations only those of the prefix on `id`. -/
structure PutInto (page later : Page) (id : NodeId) (qualifier uri : String) : Prop where
  size_eq : later.document.size = page.document.size
  links : ∀ x, later.document.node x =
    { page.document.node x with payload := later.document.payload x }
  outside : ∀ x, x ∉ page.document.subtree id ∨ page.document.isElement x = false →
    later.document.payload x = page.document.payload x
  inside : ∀ x ∈ page.document.subtree id, ∀ e, page.document.element? x = some e →
    later.document.element? x = some { e with
      qualifier := some qualifier, namespaceUri := some uri
      declarations := later.document.declarations x }
  declarations : ∀ x, x ≠ id →
    later.document.declarations x = page.document.declarations x
  declared : (later.document.declarations id).filter (·.qualifier == some qualifier) =
    [⟨some qualifier, uri⟩]
  others : (later.document.declarations id).filter (·.qualifier != some qualifier) =
    (page.document.declarations id).filter (·.qualifier != some qualifier)
  prefixes : later.prefixes = page.prefixes.register qualifier uri
  options : later.options = page.options
  serial : later.serial = page.serial

variable {page later : Page} {context : Context} {h : Handle} {id : NodeId} {q u : String}

/-- A context that stands for a node of the page is looked up there. -/
theorem run_target (hc : context.IsOn page) :
    StateT.run (target context) page = (page.resolveOrRoot context, page) := by
  cases context with
  | foreign source h =>
    have hserial : source.serial = page.serial := hc source (by simp [Context.sources])
    rw [target, takeForeign, Action.run_get_bind, if_pos (by simpa using hserial), Action.run_read]
    refine congrArg (·, page) ?_
    rw [resolveOrRoot, resolve, resolveLenient]
    cases page.check h <;> rfl
  | _ => exact Action.run_read _ page

/-- A prefix can be bound if it is not empty and not the one of declarations. -/
theorem checkBinding_eq_ok :
    NamespaceEdit.checkBinding (some q) (some u) = .ok () ↔ q ≠ "" ∧ q ≠ "xmlns" := by
  unfold NamespaceEdit.checkBinding
  split <;> simp_all

/-- The batch for an element is made exactly if the prefix can be bound. -/
theorem enteringEdits_valid (document : Document) (hid : document.isElement id) :
    (∀ edit ∈ enteringEdits document id q u, edit.check document = .ok ()) ↔
      q ≠ "" ∧ q ≠ "xmlns" := by
  rw [← checkBinding_eq_ok (u := u)]
  constructor
  · intro hall
    obtain ⟨_, -, hon⟩ := NamespaceEdit.check_eq_ok (hall _ List.mem_cons_self)
    exact hon
  · intro hbind edit hedit
    have hkind : document.isElement edit.element ∧ ∀ e, edit.checkOn e = .ok () := by
      rcases List.mem_cons.mp hedit with rfl | hedit
      · exact ⟨hid, fun _ => hbind⟩
      · obtain ⟨x, hx, rfl⟩ := List.mem_map.mp hedit
        exact ⟨(List.mem_filter.mp hx).2, fun _ => hbind⟩
    obtain ⟨e, he⟩ := Option.isSome_iff_exists.mp hkind.1
    exact NamespaceEdit.check_of_checkOn (lt_size_of_isElement hkind.1) he (hkind.2 e)

/-- What the batch for an element makes of a page. -/
theorem putInto_enteringEdits (hd : Forest page.document page.document.children)
    (hid : page.document.isElement id) : PutInto page { page with
      document := (enteringEdits page.document id q u).foldl NamespaceEdit.perform page.document
      prefixes := page.prefixes.register q u } id q u := by
  have hnode := node_enteringEdits hd hid q u
  have helement := element?_enteringEdits hd hid q u
  have hdeclared := declarations_enteringEdits hd hid q u
  have hsize := NamespaceEdit.size_perform page.document (enteringEdits page.document id q u)
  have hlinks := NamespaceEdit.sameLinks_perform page.document (enteringEdits page.document id q u)
  generalize (enteringEdits page.document id q u).foldl NamespaceEdit.perform page.document = new at *
  have hpayload : ∀ x, new.payload x = if x ∈ page.document.subtree id then
      (page.document.payload x).mapElement (Element.entered q u (x == id))
      else page.document.payload x := fun x => by rw [payload, hnode]
  refine ⟨hsize, hlinks, fun x hx => ?_, fun x hx e he => ?_, fun x hx => ?_, ?_, ?_, rfl, rfl, rfl⟩
  · rw [hpayload]
    split
    · rename_i hin
      exact Payload.mapElement_eq_self _ _ (hx.resolve_left (not_not_intro hin))
    · rfl
  · change new.element? x = _
    have hnew : new.element? x = some (e.entered q u (x == id)) := by
      rw [helement, if_pos hx, he, Option.map_some]
    simp only [declarations, hnew]
    rfl
  · exact (hdeclared x).trans (if_neg hx)
  · change (new.declarations id).filter _ = _
    rw [hdeclared, if_pos rfl, NamespaceEdit.withoutDeclaration, List.filter_append,
      List.filter_filter]
    simp
  · change (new.declarations id).filter _ = _
    rw [hdeclared, if_pos rfl, NamespaceEdit.withoutDeclaration, List.filter_append,
      List.filter_filter]
    simp

/-- A call succeeds exactly if the context is an element of the page and the prefix can be bound, and
then it makes the whole batch and registers the prefix. -/
theorem run_changeNamespace_eq_ok (hc : context.IsOn page) :
    StateT.run (changeNamespace context q u) page = (.ok h, later) ↔
      page.resolveOrRoot context = .ok h ∧ h.site.index = none ∧
        page.document.isElement h.site.id = true ∧ (q ≠ "" ∧ q ≠ "xmlns") ∧
        later = { page with
          document := (enteringEdits page.document h.site.id q u).foldl NamespaceEdit.perform
            page.document
          prefixes := page.prefixes.register q u } := by
  constructor
  · intro ho
    obtain ⟨found, middle, htarget, ho⟩ := Action.run_bind_eq_ok.mp ho
    obtain ⟨hfound, rfl⟩ := Prod.mk.inj ((run_target hc).symm.trans htarget)
    rw [Action.run_get_bind] at ho
    split at ho
    · cases ho
    rename_i hcondition
    split at ho
    · cases ho
    rename_i document count hedit
    obtain ⟨⟨⟩, rfl⟩ := Prod.mk.inj ho
    simp only [Bool.or_eq_true, not_or, Bool.not_eq_true', Bool.not_eq_false,
      Option.not_isSome_iff_eq_none] at hcondition
    obtain ⟨hvalid, rfl, -⟩ := NamespaceEdit.edit_eq_ok.mp hedit
    exact ⟨hfound, hcondition.1, hcondition.2, (enteringEdits_valid _ hcondition.2).mp hvalid, rfl⟩
  · rintro ⟨hfound, hindex, hid, hq, rfl⟩
    refine Action.run_bind_eq_ok.mpr ⟨h, page, (run_target hc).trans (by rw [hfound]), ?_⟩
    have hedit := NamespaceEdit.edit_of_check ((enteringEdits_valid (u := u) _ hid).mpr hq)
    rw [Action.run_get_bind, hindex, hid, hedit]
    rfl

/-- A call that fails leaves the page as it is. -/
theorem run_changeNamespace_error {error : Error} (hc : context.IsOn page)
    (ho : StateT.run (changeNamespace context q u) page = (.error error, later)) : later = page := by
  rcases Action.run_bind_eq_error.mp ho with htarget | ⟨found, middle, htarget, ho⟩
  · exact (Prod.mk.inj ((run_target hc).symm.trans htarget)).2.symm
  · obtain ⟨-, rfl⟩ := Prod.mk.inj ((run_target hc).symm.trans htarget)
    rw [Action.run_get_bind] at ho
    split at ho
    · exact (Prod.mk.inj ho).2.symm
    split at ho
    · exact (Prod.mk.inj ho).2.symm
    · cases ho

/-- Putting an element of a page into a namespace has exactly its effect or none. The call succeeds
if, and only if, the context is found to be an element and the prefix is neither empty nor the one of
declarations. -/
theorem Reachable.changeNamespace_all_or_none (hp : page.Reachable) (hc : context.IsOn page) :
    (∀ h later, StateT.run (changeNamespace context q u) page = (.ok h, later) →
      page.resolveOrRoot context = .ok h ∧ PutInto page later h.site.id q u) ∧
    (∀ error later, StateT.run (changeNamespace context q u) page = (.error error, later) →
      later = page) ∧
    ((∃ h later, StateT.run (changeNamespace context q u) page = (.ok h, later)) ↔
      (∃ h, page.resolveOrRoot context = .ok h ∧ h.site.index = none ∧
        page.document.isElement h.site.id = true) ∧ q ≠ "" ∧ q ≠ "xmlns") := by
  refine ⟨fun h later ho => ?_, fun error later ho => run_changeNamespace_error hc ho, ?_, ?_⟩
  · obtain ⟨hfound, -, hid, -, rfl⟩ := (run_changeNamespace_eq_ok hc).mp ho
    exact ⟨hfound, putInto_enteringEdits hp.sound.document.forest hid⟩
  · rintro ⟨h, later, ho⟩
    obtain ⟨hfound, hindex, hid, hq, -⟩ := (run_changeNamespace_eq_ok hc).mp ho
    exact ⟨⟨h, hfound, hindex, hid⟩, hq⟩
  · rintro ⟨⟨h, hfound, hindex, hid⟩, hq⟩
    exact ⟨h, _, (run_changeNamespace_eq_ok hc).mpr ⟨hfound, hindex, hid, hq, rfl⟩⟩

/-- On a page with names of the prefix above and below, and with an attribute that has it. -/
theorem changeNamespace_all_or_none_enterablePage :
    enterablePage.Reachable ∧ (Context.query "//a").IsOn enterablePage ∧
    StateT.run (changeNamespace (.query "//a") "p" "v") enterablePage = (.ok ⟨0, .node 2⟩, entered) ∧
    enterablePage.resolveOrRoot (.query "//a") = .ok ⟨0, .node 2⟩ ∧
    PutInto enterablePage entered 2 "p" "v" ∧
    ¬ ∃ h later, StateT.run (changeNamespace (.query "//a") "xmlns" "v") enterablePage =
      (.ok h, later) := by
  have hparse : Page.parse 0 enterableMarkup {} = .ok enterablePage :=
    parse_ofMarkup (by decide +kernel)
  have hsize : enterablePage.document.size ≤ 0xFFFFFFFF := by decide +kernel
  have hp : enterablePage.Reachable := .parse hparse hsize
  have hc : (Context.query "//a").IsOn enterablePage := by simp [Context.IsOn, Context.sources]
  obtain ⟨hfound, hput⟩ :=
    (Reachable.changeNamespace_all_or_none hp hc).1 _ _ run_changeNamespace_enterablePage
  refine ⟨hp, hc, run_changeNamespace_enterablePage, hfound, hput, fun hrun => ?_⟩
  exact ((Reachable.changeNamespace_all_or_none hp hc).2.2.mp hrun).2.2 rfl

end Page

end MarkupQuery
