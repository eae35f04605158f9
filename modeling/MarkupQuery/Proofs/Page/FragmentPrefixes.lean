import MarkupQuery.Proofs.Page.RootElements
import MarkupQuery.Proofs.Page.TableHistory

namespace MarkupQuery

open MarkupQuery.Tree MarkupQuery.Tree.Document

namespace PrefixTable

variable {table other : PrefixTable} {declared : List Declaration} {doc : Document} {top : NodeId}
  {p u : String}

def lastUri? (declared : List Declaration) (p : String) : Option String :=
  (declared.reverse.find? fun d => d.qualifier == some p).map Declaration.uri

/-- The default namespace that an element declares, if the prefix is the name of the element. -/
def aliased? (doc : Document) (id : NodeId) (p : String) : Option String :=
  if doc.localName? id = some p then
    ((discoverable doc id).find? fun d => d.qualifier.isNone).map Declaration.uri
  else none

theorem mem_of_lastUri? (h : lastUri? declared p = some u) : ⟨some p, u⟩ ∈ declared := by
  obtain ⟨d, hd, rfl⟩ := Option.map_eq_some_iff.mp h
  have hp : d.qualifier = some p := by simpa using List.find?_some hd
  rw [← hp]
  exact List.mem_reverse.mp (List.mem_of_find?_eq_some hd)

theorem lastUri?_eq_none : lastUri? declared p = none ↔ ∀ v, ⟨some p, v⟩ ∉ declared := by
  rw [lastUri?, Option.map_eq_none_iff, List.find?_eq_none]
  constructor
  · intro h v hv
    exact h _ (List.mem_reverse.mpr hv) (beq_self_eq_true _)
  · rintro h ⟨qualifier, v⟩ hd hq
    obtain rfl : qualifier = some p := by simpa using hq
    exact h v (List.mem_reverse.mp hd)

theorem uri?_register (table : PrefixTable) (q uri p : String) :
    (table.register q uri).uri? p = if q = p then some uri else table.uri? p :=
  lookup_bind q uri table.entries p

theorem uri?_foldl_registerDeclared (table : PrefixTable) (declared : List Declaration) (p : String) :
    (declared.foldl registerDeclared table).uri? p = (lastUri? declared p).or (table.uri? p) := by
  induction declared using List.reverseRecOn with
  | nil => rfl
  | append_singleton declared d ih =>
    obtain ⟨qualifier, v⟩ := d
    rw [List.foldl_concat, lastUri?, List.reverse_concat]
    cases qualifier with
    | none => simpa [registerDeclared, lastUri?] using ih
    | some q =>
      rw [registerDeclared, uri?_register, ih]
      by_cases hq : q = p
      · simp [hq]
      · simp [hq, lastUri?]

/-- Of two tables that are merged the second one counts. -/
theorem uri?_merge (table : PrefixTable) (h : other.Distinct) (p : String) :
    (table.merge other).uri? p = (other.uri? p).or (table.uri? p) := by
  obtain ⟨entries, default⟩ := other
  have hnodup : (entries.map Prod.fst).Nodup := h
  unfold merge
  change (entries.foldl _ table).uri? p = (entries.lookup p).or (table.uri? p)
  clear h
  induction entries generalizing table with
  | nil => rfl
  | cons entry rest ih =>
    obtain ⟨q, v⟩ := entry
    obtain ⟨hnew, hrest⟩ := List.nodup_cons.mp hnodup
    rw [List.foldl_cons, ih _ hrest, uri?_register, lookup_cons_pair]
    by_cases hq : q = p
    · subst hq
      have hnone : rest.lookup q = none :=
        Option.not_isSome_iff_eq_none.mp fun hsome => hnew (mem_map_fst_iff.mpr hsome)
      simp [hnone]
    · simp [hq]

/-- What discovery leaves a prefix bound to: what the root element declares for it, else what it was
bound to, else the default namespace of the element if the prefix is its name. -/
theorem uri?_discover (htop : doc.rootElement? = some top) (table : PrefixTable) (p : String) :
    (table.discover .auxiliary doc).uri? p =
      ((lastUri? (discoverable doc top) p).or (table.uri? p)).or (aliased? doc top p) := by
  have helement : doc.isElement top = true := List.find?_some htop
  obtain ⟨name, hname⟩ : ∃ name, doc.localName? top = some name := by
    obtain ⟨e, he⟩ := Option.isSome_iff_exists.mp helement
    exact ⟨e.name, by rw [localName?, element?_eq_some.mp he]⟩
  have hdeclared := uri?_foldl_registerDeclared table (discoverable doc top)
  unfold discover aliased?
  rw [htop]
  dsimp only
  rw [hname, Option.getD_some]
  cases (discoverable doc top).find? fun d => d.qualifier.isNone with
  | none => simp [hdeclared]
  | some d =>
    unfold registerDefault
    dsimp only
    split
    · -- the name is a prefix that is taken
      rename_i htaken
      have hsome : ((lastUri? (discoverable doc top) name).or (table.uri? name)).isSome :=
        hdeclared name ▸ htaken
      change ((discoverable doc top).foldl registerDeclared table).uri? p = _
      rw [hdeclared]
      by_cases hp : name = p
      · obtain ⟨v, hv⟩ := Option.isSome_iff_exists.mp (hp ▸ hsome)
        rw [hv]
        rfl
      · simp [hp]
    · rename_i hfree
      have hnone : (lastUri? (discoverable doc top) name).or (table.uri? name) = none :=
        Option.not_isSome_iff_eq_none.mp (hdeclared name ▸ hfree)
      rw [uri?_register]
      change (if name = p then some d.uri else
        ((discoverable doc top).foldl registerDeclared table).uri? p) = _
      rw [hdeclared]
      by_cases hp : name = p
      · rw [← hp, hnone]
        simp
      · simp [hp]

end PrefixTable

namespace Page

open PrefixTable (lastUri? aliased? discoverable)

variable {page later : Page} {text : String} {new : Handle}

/-- The element that is read is a copy of the element of the fragment, and is what the registered
prefixes are found on. -/
theorem exists_fragment (hp : page.Sound) (hmode : page.options.discovery = .auxiliary)
    (ho : StateT.run (createElement text) page = (.ok new, later)) :
    ∃ holder element, IsFragment text page.prefixes.entries holder element ∧
      later.document.declarations new.site.id =
        holder.declarations element ++ holder.undeclared element ∧
      ∀ p, later.prefixes.uri? p =
        ((lastUri? (discoverable later.document new.site.id) p).or
          (aliased? later.document new.site.id p)).or (page.prefixes.uri? p) := by
  rw [createElement, Action.run_get_bind] at ho
  cases hparse : Document.parseFragment text page.prefixes.entries with
  | error e => simp [hparse] at ho; cases ho
  | ok fragment =>
    have hfragment : Forest fragment fragment.children := (Document.Sound.parseFragment hparse).forest
    obtain ⟨holder, element, top, his, htop, hparent, hholds⟩ := exists_isFragment hparse
    have hholder : Forest holder holder.children := (Document.Sound.parse his.parse).forest
    obtain ⟨document, himport, -, -, hcopy⟩ :=
      hp.document.forest.exists_importFrom_element hfragment (List.find?_some htop)
    rw [hfragment.portableSubtree_of_holds hholder his.isElement hholds (.inr hparent)] at hcopy
    simp only [hparse, htop, himport] at ho
    obtain ⟨⟨⟩, rfl⟩ := Prod.mk.inj ho
    obtain ⟨hdeclared, hname⟩ := hholder.declarations_of_holds his.isElement hholds
    obtain ⟨hdeclared', hname'⟩ := hholder.declarations_of_holds his.isElement hcopy
    -- the copy declares what the element of the fragment does
    have hsame : discoverable fragment top = discoverable document page.document.size := by
      rw [discoverable, discoverable, hdeclared, hdeclared']
    have halias : aliased? fragment top = aliased? document page.document.size := by
      funext p
      rw [aliased?, aliased?, hsame, hname, hname']
    refine ⟨holder, element, his, hdeclared', fun p => ?_⟩
    change (page.prefixes.merge (PrefixTable.empty.discover page.options.discovery fragment)).uri? p =
      ((lastUri? (discoverable document page.document.size) p).or
        (aliased? document page.document.size p)).or (page.prefixes.uri? p)
    rw [PrefixTable.uri?_merge _ (PrefixTable.Distinct.empty.discover _ _), hmode,
      PrefixTable.uri?_discover htop, show PrefixTable.empty.uri? p = none from rfl, Option.or_none,
      hsame, halias]

/-- Reading an element from a fragment registers what is declared on the element, and its default
namespace under the name of the element unless that is declared there as a prefix, also if it is
registered already. So a registered prefix that the fragment does not declare on its element keeps its
namespace if the element relies on it, or if it is not the name of an element with another default
namespace, and only then. -/
theorem Reachable.createElement_keeps_iff (h : page.Reachable)
    (hmode : page.options.discovery = .auxiliary)
    (ho : StateT.run (createElement text) page = (.ok new, later)) :
    (∀ p, later.prefixes.uri? p =
      ((lastUri? (discoverable later.document new.site.id) p).or
        (aliased? later.document new.site.id p)).or (page.prefixes.uri? p)) ∧
    ∃ holder element, IsFragment text page.prefixes.entries holder element ∧
      (AreWritable page.prefixes.entries → ∀ p u, page.prefixes.uri? p = some u →
        (∀ v, ⟨some p, v⟩ ∉ holder.declarations element) →
          (later.prefixes.uri? p = some u ↔
            (∃ v, ⟨some p, v⟩ ∈ discoverable later.document new.site.id) ∨
              ∀ v, aliased? later.document new.site.id p = some v → v = u)) := by
  obtain ⟨holder, element, his, hdeclared, huri⟩ := exists_fragment h.sound hmode ho
  refine ⟨huri, holder, element, his, fun hwritable p u hp hnot => ?_⟩
  obtain ⟨before, after, hentries, -⟩ := List.lookup_eq_some_iff.mp hp
  have hentry : (p, u) ∈ page.prefixes.entries := by simp [hentries]
  have hne : p ≠ "" := (hwritable _ hentry).1.ne_empty
  -- what the element relies on is declared as it is registered
  have hrelied : ∀ v, ⟨some p, v⟩ ∈ discoverable later.document new.site.id → v = u := by
    intro v hv
    have hmem := List.mem_of_mem_filter hv
    rw [hdeclared, List.mem_append] at hmem
    have hhint := his.mem_hints hwritable hne (hmem.resolve_left (hnot v))
    exact Option.some.inj ((PrefixTable.lookup_of_mem h.sound.prefixes hhint).symm.trans hp)
  rw [huri, hp]
  cases hlast : lastUri? (discoverable later.document new.site.id) p with
  | some v =>
    have hv := PrefixTable.mem_of_lastUri? hlast
    obtain rfl := hrelied v hv
    simpa using .inl ⟨v, hv⟩
  | none =>
    have hnone := PrefixTable.lastUri?_eq_none.mp hlast
    cases aliased? later.document new.site.id p <;> simp [hnone]

def prefixedPage : Page := .ofMarkup "<r xmlns:a='u'/>"

def reliedOn : Page := (createElement "<a xmlns='v' a:k='1'/>").after prefixedPage

theorem createElement_keeps_iff_reliedOn : prefixedPage.Reachable ∧
    prefixedPage.options.discovery = .auxiliary ∧
    StateT.run (createElement "<a xmlns='v' a:k='1'/>") prefixedPage =
      (.ok ⟨0, .node 2⟩, reliedOn) ∧
    AreWritable prefixedPage.prefixes.entries ∧ prefixedPage.prefixes.uri? "a" = some "u" ∧
    reliedOn.document.declarations 2 = [⟨none, "v"⟩, ⟨some "a", "u"⟩] ∧
    reliedOn.prefixes.uri? "a" = some "u" := by
  have hvalues : (Page.parse 0 "<r xmlns:a='u'/>" {}).isOk = true ∧
      prefixedPage.document.size ≤ 0xFFFFFFFF ∧ prefixedPage.options.discovery = .auxiliary ∧
      (StateT.run (createElement "<a xmlns='v' a:k='1'/>") prefixedPage).1 = .ok ⟨0, .node 2⟩ ∧
      prefixedPage.prefixes.entries = [("a", "u")] ∧
      reliedOn.document.declarations 2 = [⟨none, "v"⟩, ⟨some "a", "u"⟩] := by decide +kernel
  have hread : (Document.parse (wrapped "<a xmlns='v' a:k='1'/>" [("a", "u")])).isOk = true ∧
      (Document.ofMarkup (wrapped "<a xmlns='v' a:k='1'/>" [("a", "u")])).rootElement? = some 1 ∧
      ((Document.ofMarkup (wrapped "<a xmlns='v' a:k='1'/>" [("a", "u")])).children 1).filter
        (Document.ofMarkup (wrapped "<a xmlns='v' a:k='1'/>" [("a", "u")])).isElement = [2] ∧
      (Document.ofMarkup (wrapped "<a xmlns='v' a:k='1'/>" [("a", "u")])).declarations 2 =
        [⟨none, "v"⟩] := by decide +kernel
  obtain ⟨hparse, hfits, hmode, hrun, hentries, hdeclared⟩ := hvalues
  obtain ⟨hwrapped, hroot, honly, hown⟩ := hread
  have hreachable : prefixedPage.Reachable := .parse (parse_ofMarkup hparse) hfits
  have hwritable : AreWritable prefixedPage.prefixes.entries := by
    rw [hentries, AreWritable, List.forall_mem_singleton]
    exact ⟨⟨rfl, fun c hc => List.all_eq_true.mp (by decide) c hc⟩, by simp [Xml.IsSteady]; decide⟩
  have hbound : prefixedPage.prefixes.uri? "a" = some "u" := by
    rw [PrefixTable.uri?, hentries]
    rfl
  obtain ⟨-, holder, element, his, hkeeps⟩ :=
    hreachable.createElement_keeps_iff hmode (Action.run_eq_after hrun)
  -- the holder and its only element are those that were computed
  have hholder := his.parse
  rw [hentries, Document.parse_ofMarkup hwrapped, Except.ok.injEq] at hholder
  subst hholder
  obtain ⟨top, htop, helement⟩ := his.only
  obtain rfl := Option.some.inj (hroot.symm.trans htop)
  obtain rfl : 2 = element := by simpa using honly.symm.trans helement
  have hrelied : ⟨some "a", "u"⟩ ∈ discoverable reliedOn.document 2 := by
    rw [discoverable, hdeclared]
    decide
  exact ⟨hreachable, hmode, Action.run_eq_after hrun, hwritable, hbound, hdeclared,
    (hkeeps hwritable "a" "u" hbound (by simp [hown])).mpr (.inl ⟨"u", hrelied⟩)⟩

def hijacked : Page := (createElement "<a xmlns='v'/>").after prefixedPage

/-- The prefix gets the default namespace of the element, although it is declared nowhere on it. -/
theorem prefix_rebound_as_alias : Page.parse 0 "<r xmlns:a='u'/>" {} = .ok prefixedPage ∧
    prefixedPage.options.discovery = .auxiliary ∧ prefixedPage.prefixes.uri? "a" = some "u" ∧
    StateT.run (createElement "<a xmlns='v'/>") prefixedPage = (.ok ⟨0, .node 2⟩, hijacked) ∧
    hijacked.document.declarations 2 = [⟨none, "v"⟩] ∧
    hijacked.prefixes.uri? "a" = some "v" := by
  have hvalues : (Page.parse 0 "<r xmlns:a='u'/>" {}).isOk = true ∧
      prefixedPage.options.discovery = .auxiliary ∧ prefixedPage.prefixes.uri? "a" = some "u" ∧
      (StateT.run (createElement "<a xmlns='v'/>") prefixedPage).1 = .ok ⟨0, .node 2⟩ ∧
      hijacked.document.declarations 2 = [⟨none, "v"⟩] ∧
      hijacked.prefixes.uri? "a" = some "v" := by decide +kernel
  obtain ⟨hparse, hmode, hbefore, hrun, hdeclared, hafter⟩ := hvalues
  exact ⟨parse_ofMarkup hparse, hmode, hbefore, Action.run_eq_after hrun, hdeclared, hafter⟩

end Page

end MarkupQuery
