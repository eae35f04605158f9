import MarkupQuery.Proofs.Page.Reachable
import MarkupQuery.Proofs.Page.Segments

namespace MarkupQuery

open MarkupQuery.Query (Site resolveQualifier)
open MarkupQuery.Tree

namespace Query.Site

/-- The namespaces of the elements on the way down to a site, and its own if it is an attribute. -/
def namespacesTo (doc : Document) (site : Site) : List String :=
  ((doc.ancestors site.id).filterMap doc.namespaceUri?).reverse ++
    ((site.attribute? doc).bind Attribute.namespaceUri).toList

end Query.Site

namespace Tree.Document

variable (doc : Document) (id : NodeId)

theorem namespaceUri?_segment :
    (doc.segment? id).bind (fun segment => segment.test.namespaceUri) = doc.namespaceUri? id := by
  rw [segment?, namespaceUri?, element?]
  cases doc.payload id <;> rfl

/-- The segments of an address have the namespaces on the way down to its site. -/
theorem namespaceUri_address (site : Site) :
    (doc.address site.id site.index).filterMap (fun segment => segment.test.namespaceUri) =
      site.namespacesTo doc := by
  rw [address, Site.namespacesTo, List.filterMap_append, List.filterMap_reverse,
    List.filterMap_filterMap]
  congr 1
  · exact congrArg List.reverse
      (List.filterMap_congr fun above _ => doc.namespaceUri?_segment above)
  · rw [Site.attribute?]
    cases site.index with
    | none => rfl
    | some i =>
      rw [Option.bind_some, Option.bind_some, attributeSegment?]
      cases (doc.attributes site.id)[i]? with
      | none => rfl
      | some a => cases huri : a.namespaceUri <;> simp [SegmentTest.namespaceUri, huri]

end Tree.Document

namespace PrefixTable

variable {table : PrefixTable} {uri : String}

def Registers (table : PrefixTable) (uri : String) : Prop := ∃ q, table.uri? q = some uri

/-- Queries have a prefix for the namespace: one that is bound to it, or xml where that is not
bound. -/
def Writes (table : PrefixTable) (uri : String) : Prop :=
  ∃ q, resolveQualifier table.entries q = .ok uri

theorem Registers.isSome_qualifier? (h : table.Registers uri) :
    (table.qualifier? uri).isSome := by
  obtain ⟨q, hq⟩ := h
  obtain ⟨before, after, hentries, -⟩ := List.lookup_eq_some_iff.mp hq
  simp [qualifier?, hentries]

theorem Distinct.registers_iff (h : table.Distinct) :
    table.Registers uri ↔ (table.qualifier? uri).isSome := by
  refine ⟨Registers.isSome_qualifier?, fun hq => ?_⟩
  obtain ⟨q, hq⟩ := Option.isSome_iff_exists.mp hq
  exact ⟨q, h.uri?_of_qualifier? hq⟩

theorem writes_iff : table.Writes uri ↔
    table.Registers uri ∨ (uri = xmlNamespace ∧ table.uri? "xml" = none) := by
  constructor
  · rintro ⟨q, hq⟩
    unfold resolveQualifier at hq
    split at hq
    · rename_i bound hbound
      exact .inl ⟨q, Except.ok.inj hq ▸ hbound⟩
    · rename_i hfree
      split at hq
      · rename_i hxml
        obtain rfl := eq_of_beq hxml
        exact .inr ⟨(Except.ok.inj hq).symm, hfree⟩
      · cases hq
  · rintro (⟨q, hq⟩ | ⟨rfl, hfree⟩)
    · exact ⟨q, Page.resolveQualifier_of_uri? hq⟩
    · have hlookup : table.entries.lookup "xml" = none := hfree
      exact ⟨"xml", by simp [resolveQualifier, hlookup]⟩

end PrefixTable

namespace Page

variable {page : Page} {prefixes : PrefixTable} {segment : Segment} {segments : List Segment}
  {site : Site} {e : Error}

/-- A segment fails for its namespace alone. -/
theorem usableSegment_eq_error : usableSegment prefixes segment = .error e ↔
    ∃ uri, segment.test.namespaceUri = some uri ∧ prefixes.qualifier? uri = none ∧
      e = .missingQualifier uri := by
  unfold usableSegment
  cases huri : segment.test.namespaceUri with
  | none => simp
  | some uri =>
    simp only [Option.some.injEq, exists_eq_left']
    unfold usableQualifier
    split
    · rename_i hbound
      obtain ⟨q, -, hq⟩ := Option.bind_eq_some_iff.mp (eq_of_beq hbound)
      have hsome := PrefixTable.Registers.isSome_qualifier? ⟨q, hq⟩
      simp [Except.map, Option.isSome_iff_ne_none.mp hsome]
    · cases prefixes.qualifier? uri with
      | some q => simp [Except.map]
      | none => simp [Except.map, eq_comm]

/-- Segments fail for the first namespace that has no prefix. -/
theorem mapM_usableSegment_eq_error : segments.mapM (usableSegment prefixes) = .error e ↔
    ∃ uri, (segments.filterMap fun segment => segment.test.namespaceUri).find?
        (fun uri => (prefixes.qualifier? uri).isNone) = some uri ∧ e = .missingQualifier uri := by
  induction segments with
  | nil => simp [pure, Except.pure]
  | cons segment segments ih =>
    have hfails : ∀ e, usableSegment prefixes segment = .error e ↔
        ∃ uri, segment.test.namespaceUri = some uri ∧ prefixes.qualifier? uri = none ∧
          e = .missingQualifier uri := fun _ => usableSegment_eq_error
    rw [List.mapM_cons]
    cases hs : usableSegment prefixes segment with
    | error e' =>
      obtain ⟨uri, huri, hnone, rfl⟩ := (hfails e').mp hs
      simp [bind, Except.bind, huri, hnone, eq_comm]
    | ok used =>
      have hfirst : ∀ uri, segment.test.namespaceUri = some uri →
          (prefixes.qualifier? uri).isNone = false := by
        intro uri huri
        by_contra hnone
        have hmissing := (hfails _).mpr ⟨uri, huri, by simpa using hnone, rfl⟩
        simp [hs] at hmissing
      have hrest : segments.mapM (usableSegment prefixes) = .error e ↔
          (Except.ok used >>= fun used =>
            segments.mapM (usableSegment prefixes) >>= fun rest =>
              pure (used :: rest) : Except Error (List Segment)) = .error e := by
        cases segments.mapM (usableSegment prefixes) <;> simp [bind, Except.bind, pure, Except.pure]
      rw [← hrest, ih]
      cases huri : segment.test.namespaceUri with
      | none => simp [huri]
      | some uri => simp [huri, hfirst uri huri]

theorem contextPath_eq_error : page.contextPath site = .error e ↔
    ∃ uri, (site.namespacesTo page.document).find?
        (fun uri => (page.prefixes.qualifier? uri).isNone) = some uri ∧
      e = .missingQualifier uri := by
  rw [← Document.namespaceUri_address, ← mapM_usableSegment_eq_error, contextPath]
  cases (page.document.address site.id site.index).mapM (usableSegment page.prefixes) <;>
    simp [Except.map]

/-- A path fails for the first namespace on the way to its site that has no prefix in the table. -/
theorem Sound.contextPath_eq_error (h : page.Sound) : page.contextPath site = .error e ↔
    ∃ before uri after, site.namespacesTo page.document = before ++ uri :: after ∧
      (∀ known ∈ before, page.prefixes.Registers known) ∧ ¬ page.prefixes.Registers uri ∧
      e = .missingQualifier uri := by
  have hregisters : ∀ uri, page.prefixes.Registers uri ↔ (page.prefixes.qualifier? uri).isSome :=
    fun _ => h.prefixes.registers_iff
  rw [Page.contextPath_eq_error]
  constructor
  · rintro ⟨uri, hfound, he⟩
    obtain ⟨hnone, before, after, hsplit, hbefore⟩ := List.find?_eq_some_iff_append.mp hfound
    refine ⟨before, uri, after, hsplit, fun known hk => ?_, ?_, he⟩
    · simpa [hregisters, Option.isSome_iff_ne_none] using hbefore known hk
    · simpa [hregisters] using hnone
  · rintro ⟨before, uri, after, hsplit, hbefore, hnone, he⟩
    refine ⟨uri, List.find?_eq_some_iff_append.mpr ⟨?_, before, after, hsplit, ?_⟩, he⟩
    · simpa [hregisters] using hnone
    · intro known hk
      simpa [hregisters, Option.isSome_iff_ne_none] using hbefore known hk

theorem Sound.exists_contextPath (h : page.Sound) : (∃ path, page.contextPath site = .ok path) ↔
    ∀ uri ∈ site.namespacesTo page.document, page.prefixes.Registers uri := by
  have hall : (∀ uri ∈ site.namespacesTo page.document, page.prefixes.Registers uri) ↔
      (site.namespacesTo page.document).find?
        (fun uri => (page.prefixes.qualifier? uri).isNone) = none := by
    simp [h.prefixes.registers_iff, Option.isSome_iff_ne_none]
  rw [hall]
  cases hpath : page.contextPath site with
  | ok path =>
    refine iff_of_true ⟨path, rfl⟩ (Option.eq_none_iff_forall_ne_some.mpr fun uri hfound => ?_)
    simp [Page.contextPath_eq_error.mpr ⟨uri, hfound, rfl⟩] at hpath
  | error e =>
    obtain ⟨uri, hfound, -⟩ := Page.contextPath_eq_error.mp hpath
    simp [hfound]

/-- A site has a path exactly if the table has a prefix for every namespace on the way to it, and
otherwise it fails for the first one that has none. So where queries have a prefix for all of them a
site lacks a path if the namespace of xml is among them and has no prefix in the table, and only
then. -/
theorem Reachable.contextPath_iff_registers (h : page.Reachable) (site : Site) :
    let uris := site.namespacesTo page.document
    ((∃ path, page.contextPath site = .ok path) ↔ ∀ uri ∈ uris, page.prefixes.Registers uri) ∧
    (∀ e, page.contextPath site = .error e ↔
      ∃ before uri after, uris = before ++ uri :: after ∧
        (∀ known ∈ before, page.prefixes.Registers known) ∧ ¬ page.prefixes.Registers uri ∧
        e = .missingQualifier uri) ∧
    ((∀ uri ∈ uris, page.prefixes.Writes uri) →
      ((∃ path, page.contextPath site = .ok path) ↔
        (xmlNamespace ∈ uris → page.prefixes.Registers xmlNamespace))) ∧
    ∀ uri, page.contextPath site = .error (.missingQualifier uri) →
      (page.prefixes.Writes uri ↔ uri = xmlNamespace ∧ page.prefixes.uri? "xml" = none) := by
  intro uris
  have hsucceeds : (∃ path, page.contextPath site = .ok path) ↔
      ∀ uri ∈ uris, page.prefixes.Registers uri := h.sound.exists_contextPath
  refine ⟨hsucceeds, fun _ => h.sound.contextPath_eq_error, fun hwrites => ?_, fun uri herror => ?_⟩
  · rw [hsucceeds]
    refine ⟨fun hall hxml => hall _ hxml, fun hxml uri huri => ?_⟩
    rcases PrefixTable.writes_iff.mp (hwrites uri huri) with hknown | ⟨rfl, -⟩
    · exact hknown
    · exact hxml huri
  · obtain ⟨_, _, _, -, -, hnone, he⟩ := h.sound.contextPath_eq_error.mp herror
    obtain rfl := Error.missingQualifier.inj he
    rw [PrefixTable.writes_iff]
    exact or_iff_right hnone

def languagePage : Page := .ofMarkup "<r xmlns='u'><a xmlns='' xml:lang='en'/></r>"

def languageRegistered : Page := (Edit.register "x" xmlNamespace).apply languagePage

theorem contextPath_iff_registers_language : languageRegistered.Reachable ∧
    (⟨2, some 0⟩ : Site).namespacesTo languageRegistered.document = ["u", xmlNamespace] ∧
    (∃ path, languageRegistered.contextPath ⟨2, some 0⟩ = .ok path) ∧
    languageRegistered.contextPath ⟨2, some 0⟩ = .ok "/r:r/a/@x:lang" := by
  have hvalues : (Page.parse 0 "<r xmlns='u'><a xmlns='' xml:lang='en'/></r>" {}).isOk = true ∧
      languagePage.document.size ≤ 0xFFFFFFFF ∧ languageRegistered.document.size ≤ 0xFFFFFFFF ∧
      (⟨2, some 0⟩ : Site).namespacesTo languageRegistered.document = ["u", xmlNamespace] ∧
      languageRegistered.prefixes.uri? "r" = some "u" ∧
      languageRegistered.prefixes.uri? "x" = some xmlNamespace ∧
      languageRegistered.contextPath ⟨2, some 0⟩ = .ok "/r:r/a/@x:lang" := by decide +kernel
  obtain ⟨hparse, hfits, hlater, huris, hr, hx, hpath⟩ := hvalues
  have hreachable : languageRegistered.Reachable :=
    .edit (.parse (parse_ofMarkup hparse) hfits) _ (by simp [Edit.sources]) hlater
  have hall : ∀ uri ∈ (⟨2, some 0⟩ : Site).namespacesTo languageRegistered.document,
      languageRegistered.prefixes.Registers uri := by
    rw [huris]
    simpa using ⟨⟨"r", hr⟩, ⟨"x", hx⟩⟩
  exact ⟨hreachable, huris, (hreachable.contextPath_iff_registers ⟨2, some 0⟩).1.mpr hall, hpath⟩

def markedPage : Page := .ofMarkup "<r xml:lang='en'/>"

/-- The attribute has no path, although its written path selects it. -/
theorem xml_attribute_without_path : Page.parse 0 "<r xml:lang='en'/>" {} = .ok markedPage ∧
    markedPage.document.isAttached 1 = true ∧
    (⟨1, some 0⟩ : Site).namespacesTo markedPage.document = [xmlNamespace] ∧
    markedPage.prefixes.uri? "xml" = none ∧ markedPage.prefixes.Writes xmlNamespace ∧
    Query.select markedPage.setting .document "/r/@xml:lang" = .ok [⟨1, some 0⟩] ∧
    markedPage.contextPath ⟨1, some 0⟩ = .error (.missingQualifier xmlNamespace) := by
  have hvalues : (Page.parse 0 "<r xml:lang='en'/>" {}).isOk = true ∧
      markedPage.document.isAttached 1 = true ∧
      (⟨1, some 0⟩ : Site).namespacesTo markedPage.document = [xmlNamespace] ∧
      markedPage.prefixes.uri? "xml" = none ∧
      Query.select markedPage.setting .document "/r/@xml:lang" = .ok [⟨1, some 0⟩] ∧
      markedPage.contextPath ⟨1, some 0⟩ = .error (.missingQualifier xmlNamespace) := by
    decide +kernel
  obtain ⟨hparse, hattached, huris, hfree, hselect, herror⟩ := hvalues
  exact ⟨parse_ofMarkup hparse, hattached, huris, hfree, PrefixTable.writes_iff.mpr (.inr ⟨rfl, hfree⟩),
    hselect, herror⟩

end Page

end MarkupQuery
