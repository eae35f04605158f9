import MarkupQuery.Proofs.Page.Reachable
import MarkupQuery.Proofs.Page.Runs
import MarkupQuery.Proofs.Tree.Fragments

namespace MarkupQuery

open MarkupQuery.Tree MarkupQuery.Tree.Document

def Page.lent (source page : Page) : PrefixTable :=
  if source.serial == page.serial then .empty else source.prefixes

def Context.registered (page : Page) : Context → PrefixTable
  | .foreign source _ => source.lent page
  | _ => .empty

/-- The prefixes that are registered when a content is found. Those of markup are declared on its
element. -/
def Content.registered (page : Page) : Content → PrefixTable
  | .markup text =>
    ((Document.parseFragment text page.prefixes.entries).toOption.map
      (PrefixTable.empty.discover page.options.discovery)).getD .empty
  | .node _ => .empty
  | .foreign source _ => source.lent page
  | .page source => source.prefixes

namespace Page

variable {page later source : Page} {c : Content} {context : Context} {h : Handle}

/-- A page to which trees may have been added beside its own, and on which the prefixes of `found`
were registered. -/
structure Enlarged (page later : Page) (found : PrefixTable) : Prop where
  document : Extended page.document later.document
  prefixes : later.prefixes = page.prefixes.merge found

theorem Enlarged.refl (page : Page) : Enlarged page page .empty := ⟨.refl _, rfl⟩

theorem Enlarged.defaultNamespace_eq {found : PrefixTable} (h : Enlarged page later found) :
    later.prefixes.defaultNamespace = page.prefixes.defaultNamespace := by
  rw [h.prefixes, PrefixTable.defaultNamespace_merge]

/-- How looking for a content or a context comes out: it fails and leaves the page as it is, it gives
a handle of the page, or it gives the handle of a copy. -/
inductive Finds (page : Page) (found : PrefixTable) : Except Error Handle × Page → Prop
  | fails (e : Error) : Finds page found (.error e, page)
  | present (h : Handle) (hf : found = .empty) : Finds page found (.ok h, page)
  | copied (copy : NodeId) (later : Page) (h : Enlarged page later found) :
    Finds page found (.ok (page.handle copy), later)

theorem finds_read (f : Page → Except Error Handle) (page : Page) :
    Finds page .empty (StateT.run (Action.read f) page) := by
  rw [Action.run_read]
  cases f page with
  | ok h => exact .present h rfl
  | error e => exact .fails e

theorem finds_adopt (hp : page.Sound) (hs : source.Sound) (h : Handle) :
    Finds page source.prefixes (StateT.run (adopt source h) page) := by
  rw [adopt, Action.run_get_bind]
  split
  · rename_i document prefixes copy hcopied
    obtain ⟨id, himport, rfl⟩ := copyInto_eq_ok hcopied
    exact .copied copy _ ⟨extended_importFrom hp.document.forest hs.document.forest himport, rfl⟩
  · exact .fails _

theorem finds_takeForeign (hp : page.Sound) (hs : source.Sound) (h : Handle) :
    Finds page (source.lent page) (StateT.run (takeForeign source h) page) := by
  rw [takeForeign, Action.run_get_bind, lent]
  split
  · exact finds_read _ page
  · exact finds_adopt hp hs h

/-- An element that could be read is always copied, so its prefixes are not registered in vain. -/
theorem finds_createElement (hp : page.Sound) (text : String) :
    Finds page ((Content.markup text).registered page)
      (StateT.run (createElement text) page) := by
  rw [createElement, Action.run_get_bind, Content.registered]
  cases hparse : Document.parseFragment text page.prefixes.entries with
  | error e => exact .fails _
  | ok fragment =>
    have hfragment : Forest fragment fragment.children := (Sound.parseFragment hparse).forest
    obtain ⟨top, htop⟩ := exists_rootElement_of_parseFragment hparse
    obtain ⟨document, himport, -⟩ := hp.document.forest.exists_importFrom_element hfragment
      (List.find?_some htop)
    have hextended := extended_importFrom hp.document.forest hfragment himport
    simp only [htop, himport]
    exact .copied _ _ ⟨hextended, rfl⟩

theorem finds_contentHandle (hp : page.Sound) (hs : ∀ source ∈ c.sources, source.Sound) :
    Finds page (c.registered page) (StateT.run (contentHandle c) page) := by
  cases c with
  | markup text => exact finds_createElement hp text
  | node h => exact finds_read _ page
  | foreign source h => exact finds_takeForeign hp (hs source (by simp [Content.sources])) h
  | page source =>
    rw [contentHandle]
    cases source.rootHandle? with
    | none => exact .fails _
    | some h => exact finds_adopt hp (hs source (by simp [Content.sources])) h

theorem finds_target (hp : page.Sound) (hs : ∀ source ∈ context.sources, source.Sound) :
    Finds page (context.registered page) (StateT.run (target context) page) := by
  cases context with
  | foreign source h => exact finds_takeForeign hp (hs source (by simp [Context.sources])) h
  | _ => exact finds_read _ page

theorem enlarged_of_finds {found : PrefixTable} (h : Finds page found (.ok h, later)) :
    Enlarged page later found := by
  cases h with
  | present _ hf => exact hf ▸ .refl page
  | copied _ _ h => exact h

end Page

end MarkupQuery
