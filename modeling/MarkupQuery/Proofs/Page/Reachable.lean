import MarkupQuery.Page.Edit
import MarkupQuery.Page.Namespaces
import MarkupQuery.Page.Output
import MarkupQuery.Proofs.Page.Registration
import MarkupQuery.Proofs.Query.Steps
import MarkupQuery.Proofs.Tree.Sound

namespace MarkupQuery

open MarkupQuery.Tree (Document Move NodeId)
open MarkupQuery.Page (Action)

def Context.sources : Context → List Page
  | .foreign source _ => [source]
  | _ => []

def Content.sources : Content → List Page
  | .foreign source _ | .page source => [source]
  | _ => []

def Page.Action.after {α : Type} (action : Action α) (page : Page) : Page :=
  (StateT.run action page).2

inductive Edit where
  | append (content : Content) (context : Context)
  | prepend (content : Content) (context : Context)
  | appendSibling (content : Content) (context : Context)
  | prependSibling (content : Content) (context : Context)
  | replace (context : Context) (content : Content)
  | remove (context : Context)
  | createElement (markup : String)
  | adopt (source : Page) (h : Handle)
  | changeNamespace (context : Context) (qualifier uri : String)
  | removeNamespace (qualifier : String)
  | register (qualifier uri : String)
  | search (query : String) (context : Context)
  | selectElements (selector : String) (context : Context)

namespace Edit

/-- The page that an edit leaves, whether it fails or not. -/
def apply (page : Page) : Edit → Page
  | append content context => (Page.append content context).after page
  | prepend content context => (Page.prepend content context).after page
  | appendSibling content context => (Page.appendSibling content context).after page
  | prependSibling content context => (Page.prependSibling content context).after page
  | replace context content => (Page.replace context content).after page
  | remove context => (Page.remove context).after page
  | createElement markup => (Page.createElement markup).after page
  | adopt source h => (Page.adopt source h).after page
  | changeNamespace context qualifier uri =>
    (Page.changeNamespace context qualifier uri).after page
  | removeNamespace qualifier => (Page.removeNamespace qualifier).after page
  | register qualifier uri => page.register qualifier uri
  | search query context => (Page.search query context).after page
  | selectElements selector context => (Page.selectElements selector context).after page

def sources : Edit → List Page
  | append content context | prepend content context | appendSibling content context
  | prependSibling content context | replace context content =>
    content.sources ++ context.sources
  | remove _ | createElement _ | removeNamespace _ | register _ _ => []
  | adopt source _ => [source]
  | changeNamespace context _ _ | search _ context | selectElements _ context => context.sources

end Edit

/-- The nodes of a document are numbered from 1 in 32 bits. No document grows beyond that. -/
def Tree.Document.Fits (doc : Document) : Prop := doc.size ≤ 0xFFFFFFFF

/-- Pages that are read from markup, empty or made of a part of another page, and edited any number
of times. Nodes are copied from pages of the same kind. -/
inductive Page.Reachable : Page → Prop
  | parse {serial : Nat} {markup : String} {options : Options} {page : Page}
    (h : Page.parse serial markup options = .ok page) (hf : page.document.Fits) : page.Reachable
  | empty (serial : Nat) : (Page.empty serial).Reachable
  | ofNode {serial : Nat} {source page : Page} {h : Handle} {options : Options}
    (hs : source.Reachable) (ho : Page.ofNode serial source h options = .ok page)
    (hf : page.document.Fits) : page.Reachable
  | extract {serial : Nat} {source page : Page} {context : Context} (hs : source.Reachable)
    (hc : ∀ other ∈ context.sources, other.Reachable)
    (ho : source.extract serial context = .ok page) (hf : page.document.Fits) : page.Reachable
  | edit {page : Page} (h : page.Reachable) (edit : Edit)
    (hs : ∀ source ∈ edit.sources, source.Reachable) (hf : (edit.apply page).document.Fits) :
    (edit.apply page).Reachable

def Page.ofMarkup (markup : String) : Page :=
  match Page.parse 0 markup {} with
  | .ok page => page
  | .error _ => .empty 0

theorem Page.parse_ofMarkup {markup : String} (h : (Page.parse 0 markup {}).isOk = true) :
    Page.parse 0 markup {} = .ok (.ofMarkup markup) := by
  unfold ofMarkup
  split
  · assumption
  · rename_i hp
    simp [hp, Except.isOk, Except.toBool] at h

/-- What holds of every element that is read in a scope holds of all elements of a page from markup. -/
theorem Page.every_of_parse {page : Page} {P : Tree.Element → Prop} {serial : Nat} {markup : String}
    {options : Options} (hp : Page.parse serial markup options = .ok page)
    (h : ∀ {outer inner : List Tree.Declaration} {e : Tree.Element}, e.ScopedIn outer inner → P e) :
    page.document.Every P := by
  unfold Page.parse at hp
  split at hp
  · rename_i hparse
    exact Except.ok.inj hp ▸ .of_parse hparse h
  · split at hp
    · cases hp
    · exact Except.ok.inj hp ▸ .empty

structure Page.Sound (page : Page) : Prop where
  document : page.document.Sound
  prefixes : page.prefixes.Distinct

namespace Page

variable {α β : Type} {page source : Page}

namespace Action

theorem run_eq_after {action : Action α} {r : Except Error α}
    (h : (StateT.run action page).1 = r) : StateT.run action page = (r, action.after page) :=
  Prod.ext h rfl

def Keeps (action : Action α) : Prop := ∀ page : Page, page.Sound → (action.after page).Sound

theorem Keeps.sound_later {action : Action α} (h : action.Keeps) (hpage : page.Sound)
    {result : Except Error α} {later : Page} (ho : StateT.run action page = (result, later)) :
    later.Sound := by
  have hlater := h page hpage
  rwa [after, ho] at hlater

theorem keeps_pure (a : α) : Keeps (pure a : Action α) := fun _ h => h

theorem keeps_throw (e : Error) : Keeps (throw e : Action α) := fun _ h => h

theorem keeps_set (h : page.Sound) : Keeps (set page : Action Unit) := fun _ _ => h

theorem keeps_bind {action : Action α} {next : α → Action β} (h : action.Keeps)
    (hn : ∀ a, (next a).Keeps) : (action >>= next).Keeps := by
  intro page hpage
  -- what the first action leaves is sound even if it fails and `next` never runs
  have hmiddle := h page hpage
  unfold after at hmiddle ⊢
  change Page.Sound ((ExceptT.bindCont next (StateT.run action page).1) (StateT.run action page).2).2
  generalize StateT.run action page = result at hmiddle ⊢
  obtain ⟨value, middle⟩ := result
  cases value with
  | error e => exact hmiddle
  | ok a => exact hn a middle hmiddle

theorem keeps_get {next : Page → Action α} (h : ∀ page, page.Sound → (next page).Keeps) :
    (get >>= next).Keeps := fun page hpage => h page hpage page hpage

theorem keeps_map {action : Action α} (h : action.Keeps) (f : α → β) : (f <$> action).Keeps :=
  keeps_bind h fun _ => keeps_pure _

theorem keeps_read (f : Page → Except Error α) : (read f).Keeps := by
  refine keeps_get fun page _ => ?_
  split
  · exact keeps_pure _
  · exact keeps_throw _

theorem keeps_change {f : Document → Except Tree.Error Document}
    (h : ∀ document new, document.Sound → f document = .ok new → new.Sound) :
    (change f).Keeps := by
  refine keeps_get fun page hpage => ?_
  split
  · rename_i document ho
    exact keeps_set ⟨h _ document hpage.document ho, hpage.prefixes⟩
  · exact keeps_throw _

end Action

open MarkupQuery.Page.Action

theorem ofTree_eq_ok {r : Except Tree.Error α} {a : α} : ofTree r = .ok a ↔ r = .ok a := by
  cases r <;> simp [ofTree, Except.mapError]

/-- What is copied from a page is a tree of its document and the prefixes that it has. -/
theorem copyInto_eq_ok {document new : Document} {prefixes merged : PrefixTable} {h : Handle}
    {copy : NodeId} (ho : copyInto document prefixes source h = .ok (new, merged, copy)) :
    ∃ id, document.importFrom source.document id = .ok (new, copy) ∧
      merged = prefixes.merge source.prefixes := by
  unfold copyInto at ho
  obtain ⟨checked, -, ho⟩ := Query.bind_eq_ok.mp ho
  split at ho
  · simp at ho
  split at ho
  · simp at ho
  obtain ⟨⟨copied, id⟩, hcopied, ho⟩ := Query.bind_eq_ok.mp ho
  simp only [pure, Except.pure, Except.ok.injEq, Prod.mk.injEq] at ho
  obtain ⟨rfl, rfl, rfl⟩ := ho
  exact ⟨_, ofTree_eq_ok.mp hcopied, rfl⟩

/-- A copy of a node of a sound page leaves a document sound. -/
theorem sound_copyInto {document new : Document} {prefixes merged : PrefixTable} {h : Handle}
    {copy : NodeId} (hd : document.Sound) (hp : prefixes.Distinct) (hs : source.Sound)
    (ho : copyInto document prefixes source h = .ok (new, merged, copy)) :
    new.Sound ∧ merged.Distinct := by
  obtain ⟨id, hcopied, rfl⟩ := copyInto_eq_ok ho
  exact ⟨hd.importFrom hs.document hcopied, hp.merge⟩

theorem keeps_adopt (hs : source.Sound) (h : Handle) : (adopt source h).Keeps := by
  refine keeps_get fun page hpage => ?_
  split
  · rename_i document prefixes copy ho
    obtain ⟨hdocument, hprefixes⟩ := sound_copyInto hpage.document hpage.prefixes hs ho
    exact keeps_bind (keeps_set ⟨hdocument, hprefixes⟩) fun _ => keeps_pure _
  · exact keeps_throw _

theorem keeps_takeForeign (hs : source.Sound) (h : Handle) : (takeForeign source h).Keeps := by
  refine keeps_get fun page _ => ?_
  split
  · exact keeps_read _
  · exact keeps_adopt hs h

section Contexts

variable {context : Context} (hc : ∀ source ∈ context.sources, source.Sound)
include hc

theorem keeps_queryContext : (queryContext context).Keeps := by
  cases context with
  | foreign source h =>
    exact keeps_map (keeps_takeForeign (hc source (by simp [Context.sources])) h) _
  | _ => exact keeps_read _

theorem keeps_target : (target context).Keeps := by
  cases context with
  | foreign source h => exact keeps_takeForeign (hc source (by simp [Context.sources])) h
  | _ => exact keeps_read _

theorem keeps_search (query : String) : (search query context).Keeps :=
  keeps_bind (keeps_queryContext hc) fun _ => keeps_read _

theorem keeps_selectElements (selector : String) : (selectElements selector context).Keeps :=
  keeps_bind (keeps_queryContext hc) fun _ => keeps_read _

theorem keeps_changeNamespace (qualifier uri : String) :
    (changeNamespace context qualifier uri).Keeps := by
  refine keeps_bind (keeps_target hc) fun h => keeps_get fun page hpage => ?_
  split
  · exact keeps_throw _
  split
  · exact keeps_throw _
  · rename_i document _ ho
    exact keeps_bind (keeps_set ⟨hpage.document.edit ho, hpage.prefixes.register⟩)
      fun _ => keeps_pure _

end Contexts

theorem keeps_createElement (markup : String) : (createElement markup).Keeps := by
  refine keeps_get fun page hpage => ?_
  split
  · exact keeps_throw _
  rename_i fragment hfragment
  refine keeps_bind (keeps_set ⟨hpage.document, hpage.prefixes.merge⟩) fun _ => ?_
  split
  · exact keeps_throw _
  split
  · exact keeps_throw _
  rename_i document copy ho
  have hdocument := hpage.document.importFrom (.parseFragment hfragment) ho
  refine keeps_bind (fun other hother => ?_) fun _ => keeps_pure _
  exact ⟨hdocument, hother.prefixes⟩

theorem keeps_contentHandle {c : Content} (hc : ∀ source ∈ c.sources, source.Sound) :
    (contentHandle c).Keeps := by
  cases c with
  | markup text => exact keeps_createElement text
  | node h => exact keeps_read _
  | foreign source h => exact keeps_takeForeign (hc source (by simp [Content.sources])) h
  | page source =>
    simp only [contentHandle]
    cases source.rootHandle? with
    | none => exact keeps_throw _
    | some h => exact keeps_adopt (hc source (by simp [Content.sources])) h

theorem keeps_content {c : Content} (hc : ∀ source ∈ c.sources, source.Sound) :
    (content c).Keeps := by
  refine keeps_bind (keeps_contentHandle hc) fun h => ?_
  split
  · exact keeps_throw _
  · exact keeps_pure _

theorem keeps_place (id : NodeId) {move : Document → Except Tree.Error Document}
    (h : ∀ document new, document.Sound → move document = .ok new → new.Sound) :
    (place move id).Keeps :=
  keeps_bind (keeps_change h) fun _ => keeps_get fun _ _ => keeps_pure _

section Moves

variable {c : Content} {context : Context}
  (hs : ∀ source ∈ c.sources ++ context.sources, source.Sound)
include hs

/-- What an edit inserts is made first, then its place is looked for. -/
theorem keeps_moves (move : NodeId → NodeId → Move) :
    (do
      let new ← content c
      let h ← target context
      place (move h.site.id new).change.make new : Action Handle).Keeps := by
  rw [List.forall_mem_append] at hs
  exact keeps_bind (keeps_content hs.1) fun new => keeps_bind (keeps_target hs.2) fun h =>
    keeps_place new fun _ _ hd ho => hd.move (move h.site.id new) ho

theorem keeps_replace : (replace context c).Keeps := by
  rw [List.forall_mem_append] at hs
  exact keeps_bind (keeps_target hs.2) fun h => keeps_bind (keeps_content hs.1) fun new =>
    keeps_place new fun _ _ hd ho => hd.move (.replace h.site.id new) ho

end Moves

theorem keeps_designated (context : Context) : (designated context).Keeps := by
  cases context with
  | whole => exact keeps_pure _
  | query text =>
    exact keeps_bind (keeps_search (by simp [Context.sources]) text) fun _ => keeps_pure _
  | _ => exact keeps_read _

theorem sound_removeAttributes {document : Document} (h : document.Sound)
    (names : List (NodeId × String)) (count : Nat) :
    (names.foldl (fun (document, count) (owner, name) =>
      let (document, found) := document.removeAttribute owner name
      (document, if found then count + 1 else count)) (document, count)).1.Sound := by
  induction names generalizing document count with
  | nil => exact h
  | cons name names ih => exact ih (h.removeAttribute name.1 name.2) _

theorem sound_detachAll {document : Document} (h : document.Sound) (ids : List NodeId)
    (count : Nat) :
    (ids.foldl (fun (document, count) id =>
      if (document.parent id).isSome then (document.detach id, count + 1) else (document, count))
      (document, count)).1.Sound := by
  induction ids generalizing document count with
  | nil => exact h
  | cons id ids ih =>
    rw [List.foldl_cons]
    dsimp only
    split
    · exact ih (h.move (.detach id) rfl) _
    · exact ih h _

theorem keeps_remove (context : Context) : (remove context).Keeps := by
  refine keeps_bind (keeps_designated context) fun handles => keeps_get fun page hpage => ?_
  refine keeps_bind (keeps_set ⟨?_, hpage.prefixes⟩) fun _ => keeps_pure _
  exact sound_detachAll (sound_removeAttributes hpage.document _ _) _ _

theorem keeps_removeNamespace (qualifier : String) : (removeNamespace qualifier).Keeps := by
  refine keeps_get fun page hpage => ?_
  split
  · exact keeps_throw _
  rename_i uri prefixes hremoved
  split
  · exact keeps_throw _
  rename_i document _ ho
  have hprefixes : prefixes.Distinct := hpage.prefixes.remove hremoved
  exact keeps_set ⟨hpage.document.edit ho, hprefixes⟩

namespace Sound

/-- Every edit keeps a page sound, also one that fails half way. -/
theorem apply (h : page.Sound) {edit : Edit} (hs : ∀ source ∈ edit.sources, source.Sound) :
    (edit.apply page).Sound := by
  cases edit with
  | append => exact keeps_moves hs .append page h
  | prepend => exact keeps_moves hs .prepend page h
  | appendSibling => exact keeps_moves hs .insertAfter page h
  | prependSibling => exact keeps_moves hs .insertBefore page h
  | replace => exact keeps_replace hs page h
  | remove context => exact keeps_remove context page h
  | createElement markup => exact keeps_createElement markup page h
  | adopt source h' => exact keeps_adopt (hs source (by simp [Edit.sources])) h' page h
  | changeNamespace context qualifier uri => exact keeps_changeNamespace hs qualifier uri page h
  | removeNamespace qualifier => exact keeps_removeNamespace qualifier page h
  | register qualifier uri => exact ⟨h.document, h.prefixes.register⟩
  | search query context => exact keeps_search hs query page h
  | selectElements selector context => exact keeps_selectElements hs selector page h

theorem ofDocument {document : Document} (h : document.Sound) (serial : Nat) (options : Options) :
    (ofDocument serial document options).Sound := ⟨h, PrefixTable.Distinct.empty.discover _ _⟩

theorem parse {serial : Nat} {markup : String} {options : Options}
    (h : Page.parse serial markup options = .ok page) : page.Sound := by
  unfold Page.parse at h
  split at h
  · rename_i document hparse
    exact Except.ok.inj h ▸ ofDocument (.parse hparse) serial options
  · split at h
    · simp at h
    · exact Except.ok.inj h ▸ ofDocument .empty serial options

theorem ofNode {serial : Nat} {h : Handle} {options : Options} (hs : source.Sound)
    (ho : Page.ofNode serial source h options = .ok page) : page.Sound := by
  unfold Page.ofNode at ho
  obtain ⟨⟨copied, prefixes, copy⟩, hcopied, ho⟩ := Query.bind_eq_ok.mp ho
  obtain ⟨document, happended, ho⟩ := Query.bind_eq_ok.mp ho
  obtain ⟨hdocument, hprefixes⟩ := sound_copyInto .empty hs.prefixes hs hcopied
  obtain rfl := Except.ok.inj ho
  exact ⟨hdocument.append (ofTree_eq_ok.mp happended), hprefixes.discover _ _⟩

theorem extract {serial : Nat} {context : Context} (hs : source.Sound)
    (hc : ∀ other ∈ context.sources, other.Sound)
    (ho : source.extract serial context = .ok page) : page.Sound := by
  have hreading : (source.reading context).1.Sound := by
    unfold Page.reading
    split
    · split
      · exact hs
      · exact hc _ (by simp [Context.sources])
    · exact hs
  unfold Page.extract at ho
  obtain ⟨found, -, ho⟩ := Query.bind_eq_ok.mp ho
  cases found with
  | some h => exact ofNode hreading ho
  | none =>
    obtain rfl := Except.ok.inj ho
    exact ⟨.empty, hs.prefixes⟩

end Sound

namespace Reachable

theorem sound (h : page.Reachable) : page.Sound := by
  induction h with
  | parse ho => exact .parse ho
  | empty serial => exact .ofDocument .empty serial {}
  | ofNode _ ho _ ih => exact ih.ofNode ho
  | extract _ _ ho _ ih ihc => exact ih.extract ihc ho
  | edit _ edit _ _ ih ihs => exact ih.apply ihs

theorem fits (h : page.Reachable) : page.document.Fits := by
  cases h with
  | empty => exact show Document.empty.size ≤ 0xFFFFFFFF by decide
  | _ => assumption

/-- A page stays reachable through a run of edits. -/
theorem run {edits : List Edit} (h : page.Reachable)
    (hs : ∀ edit ∈ edits, ∀ source ∈ edit.sources, source.Reachable)
    (hf : ∀ before ∈ edits.inits, (before.foldl Edit.apply page).document.Fits) :
    (edits.foldl Edit.apply page).Reachable := by
  induction edits generalizing page with
  | nil => exact h
  | cons edit edits ih =>
    rw [List.forall_mem_cons] at hs
    have hfits : (edit.apply page).document.Fits := hf [edit] (by simp)
    exact ih (h.edit edit hs.1 hfits) hs.2 fun before hb => hf (edit :: before) (by simp [hb])

/-- No element and no attribute of a page has a prefix without a namespace, and no attribute has a
namespace without a prefix. That holds of detached nodes too. -/
theorem names_paired (h : page.Reachable) :
    ∀ id e, page.document.payload id = .element e →
      (e.qualifier.isSome → e.namespaceUri.isSome) ∧
      ∀ a ∈ e.attributes, (a.qualifier.isSome ↔ a.namespaceUri.isSome) := by
  intro id e he
  have hpaired := h.sound.document.every id e he
  exact ⟨hpaired.element, fun a ha => ⟨hpaired.attributes a ha, hpaired.prefixed a ha⟩⟩

end Reachable

def prefixedMarkup : String := "<r xmlns:p='u' p:k='1'><p:a p:k='4' xml:lang='en'/></r>"

/-- Edits that change the prefixes of names, and one that fails. -/
def prefixEdits : List Edit :=
  [.changeNamespace (.query "//p:a") "q" "v", .removeNamespace "p",
    .append (.markup "<q:c q:m='2' n='3'/>") .whole, .changeNamespace .whole "xmlns" "w",
    .remove (.query "//q:c")]

def prefixEdited : Page := prefixEdits.foldl Edit.apply (.ofMarkup prefixedMarkup)

/-- A prefix is replaced, one is taken away, and one is read on a node that is then detached. -/
theorem names_paired_prefixEdited : prefixEdited.Reachable ∧
    ([1, 2, 3].map prefixEdited.document.element? = [
      some ⟨"r", none, none, [⟨"k", "1", none, none⟩], []⟩,
      some ⟨"a", some "q", some "v", [⟨"k", "4", none, none⟩,
        ⟨"lang", "en", some "xml", some "http://www.w3.org/XML/1998/namespace"⟩], [⟨some "q", "v"⟩]⟩,
      some ⟨"c", some "q", some "v", [⟨"m", "2", some "q", some "v"⟩, ⟨"n", "3", none, none⟩],
        [⟨some "q", "v"⟩]⟩] ∧
      prefixEdited.document.isAttached 3 = false) ∧
    ∀ id e, prefixEdited.document.payload id = .element e →
      (e.qualifier.isSome → e.namespaceUri.isSome) ∧
      ∀ a ∈ e.attributes, (a.qualifier.isSome ↔ a.namespaceUri.isSome) := by
  have hparse : Page.parse 0 prefixedMarkup {} = .ok (.ofMarkup prefixedMarkup) :=
    parse_ofMarkup (by decide +kernel)
  have hsizes : ∀ before ∈ prefixEdits.inits,
      (before.foldl Edit.apply (.ofMarkup prefixedMarkup)).document.size ≤ 0xFFFFFFFF := by
    decide +kernel
  have hp : prefixEdited.Reachable := by
    refine Reachable.run (.parse hparse (hsizes [] (by simp))) ?_ hsizes
    simp [prefixEdits, Edit.sources, Content.sources, Context.sources]
  exact ⟨hp, by decide +kernel, hp.names_paired⟩

end Page

end MarkupQuery
