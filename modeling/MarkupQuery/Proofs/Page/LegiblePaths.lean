import MarkupQuery.Proofs.Page.SegmentNames
import MarkupQuery.Proofs.Tree.Assembled
import MarkupQuery.Proofs.Tree.Growth

namespace MarkupQuery.Tree

open MarkupQuery.Query

variable {segment : Segment} {segments : List Segment}

section Spelling

def Segment.withQualifier (qualifier : Option String) (segment : Segment) : Segment :=
  { segment with test := segment.test.withQualifier qualifier }

theorem SegmentTest.withQualifier_qualifier (test : SegmentTest) :
    test.withQualifier test.qualifier = test := by
  cases test <;> rfl

theorem SegmentTest.legible_withQualifier (qualifier : Option String) (test : SegmentTest) :
    (test.withQualifier qualifier).Legible ↔ test.Legible :=
  ⟨fun h => ⟨by simpa using h.noInstruction, by simpa using h.name⟩,
    fun h => ⟨by simpa using h.noInstruction, by simpa using h.name⟩⟩

theorem Segment.trimmed_withQualifier (qualifier : Option String) (segment : Segment) :
    (segment.withQualifier qualifier).trimmed = segment.trimmed.withQualifier qualifier := by
  obtain ⟨test, position⟩ := segment
  cases position <;> cases test <;> rfl

/-- The prefixes do not count for what is legible. -/
theorem legible_trimmedLast {used : List Segment}
    (h : List.Forall₂ (fun segment used => ∃ q, used = Segment.withQualifier q segment)
      segments used) :
    (∀ segment ∈ trimmedLast used, segment.test.Legible) ↔
      ∀ segment ∈ trimmedLast segments, segment.test.Legible := by
  induction segments using trimmedLast.induct generalizing used with
  | case1 =>
    cases h
    rfl
  | case2 segment =>
    obtain ⟨_, _, ⟨q, rfl⟩, hnil, rfl⟩ := List.forall₂_cons_left_iff.mp h
    cases hnil
    simp only [trimmedLast, List.forall_mem_singleton, Segment.trimmed_withQualifier]
    exact SegmentTest.legible_withQualifier q _
  | case3 segment next more ih =>
    obtain ⟨_, _, ⟨q, rfl⟩, hmore, rfl⟩ := List.forall₂_cons_left_iff.mp h
    obtain ⟨next', more', -, -, rfl⟩ := List.forall₂_cons_left_iff.mp hmore
    rw [trimmedLast, trimmedLast, List.forall_mem_cons, List.forall_mem_cons, ih hmore]
    exact and_congr_left' (SegmentTest.legible_withQualifier q _)

end Spelling

section Addresses

/-- A segment whose name is one of markup, and whose prefix comes with a namespace. -/
structure Segment.Named (segment : Segment) : Prop where
  name : ∀ name ∈ segment.test.name?, Xml.IsName name
  qualified : segment.test.qualifier.isSome → segment.test.namespaceUri.isSome

namespace Document

variable {doc : Document} {id : NodeId} {index : Option Nat}

theorem named_of_segment? (he : doc.Every fun e => Xml.IsName e.name ∧ e.Qualified)
    (hs : doc.segment? id = some segment) : segment.Named := by
  obtain ⟨test, htest, rfl⟩ := Option.map_eq_some_iff.mp hs
  cases hp : doc.payload id with
  | document => simp [hp, segmentTest?] at htest
  | element e =>
    rw [hp, segmentTest?, Option.some.injEq] at htest
    obtain ⟨hname, hqualified⟩ := he id e hp
    subst htest
    exact ⟨by rintro _ ⟨⟩; exact hname, hqualified.element⟩
  | _ =>
    rw [hp, segmentTest?, Option.some.injEq] at htest
    subst htest
    exact ⟨by simp [SegmentTest.name?], by simp [SegmentTest.qualifier]⟩

/-- The segments of an address are named as the markup is. -/
theorem named_address {markup : String} (h : Document.parse markup = .ok doc) :
    ∀ segment ∈ doc.address id index, segment.Named := by
  have hnames : doc.Every fun e => Xml.IsName e.name ∧ e.Qualified :=
    .of_parse h fun he => ⟨he.name, he.resolved.qualified⟩
  have hattributes : doc.Every fun e => e.Qualified ∧ ∀ a ∈ e.attributes, Xml.IsName a.name :=
    .of_parse h fun he => ⟨he.resolved.qualified, fun a ha => (he.attributes a ha).name⟩
  intro segment hsegment
  rcases List.mem_append.mp hsegment with hsegment | hsegment
  · obtain ⟨other, -, hs⟩ := List.mem_filterMap.mp (List.mem_reverse.mp hsegment)
    exact named_of_segment? hnames hs
  · obtain ⟨i, -, hs⟩ := Option.bind_eq_some_iff.mp (Option.mem_toList.mp hsegment)
    obtain ⟨a, ha, rfl⟩ := Option.map_eq_some_iff.mp hs
    obtain ⟨e, hp, hmem⟩ := mem_attributes.mp (List.mem_of_getElem? ha)
    obtain ⟨hqualified, hname⟩ := hattributes id e (element?_eq_some.mp hp)
    exact ⟨by rintro _ ⟨⟩; exact hname a hmem, hqualified.attributes a hmem⟩

end Document

end Addresses

end MarkupQuery.Tree

namespace MarkupQuery.Page

open MarkupQuery.Query MarkupQuery.Tree MarkupQuery.Text

variable {page : Page} {prefixes : PrefixTable} {segment used : Segment} {test : SegmentTest}
  {qualifier : Option String} {markup path uri : String} {site : Site}

theorem usableQualifier_registered (h : usableQualifier prefixes test uri = .ok qualifier) :
    ∀ q ∈ qualifier, q ∈ prefixes.entries.map Prod.fst := by
  obtain ⟨q, rfl, hbound | hfound⟩ := usableQualifier_eq_ok h
  · rintro _ ⟨⟩
    exact PrefixTable.mem_of_uri? hbound
  · obtain ⟨entry, hentry, rfl⟩ := Option.map_eq_some_iff.mp hfound
    rintro _ ⟨⟩
    exact List.mem_map.mpr ⟨entry, List.mem_of_find?_eq_some hentry, rfl⟩

/-- A segment from markup gets a prefix from the table. -/
theorem usableSegment_fromMarkup (hprefixes : ∀ entry ∈ prefixes.entries, IsPlain entry.1)
    (hs : segment.Named) (h : usableSegment prefixes segment = .ok used) :
    used.test.FromMarkup ∧ ∃ q, used = segment.withQualifier q := by
  unfold usableSegment at h
  split at h
  · rename_i huri
    obtain rfl := Except.ok.inj h
    refine ⟨⟨fun q hq => ?_, hs.name⟩, segment.test.qualifier, ?_⟩
    · have hsome := hs.qualified (by rw [hq]; rfl)
      simp [huri] at hsome
    · rw [Segment.withQualifier, SegmentTest.withQualifier_qualifier]
  · obtain ⟨q, husable, rfl⟩ := map_eq_ok.mp h
    refine ⟨⟨fun p hp => ?_, by simpa using hs.name⟩, q, rfl⟩
    have hregistered := usableQualifier_registered husable p (SegmentTest.mem_of_withQualifier hp)
    obtain ⟨entry, hentry, rfl⟩ := List.mem_map.mp hregistered
    exact hprefixes entry hentry

/-- The path of a node or an attribute of a document from markup is parsed exactly if nothing on it
is an instruction and its names are names of queries. Of the last name only what is left of it in the
trimmed path counts. -/
theorem parse_contextPath_iff (hparse : Document.parse markup = .ok page.document)
    (hprefixes : ∀ entry ∈ page.prefixes.entries, IsPlain entry.1)
    (hpath : page.contextPath site = .ok path) :
    (∃ e, Query.parse path = .ok e) ↔ trim path.toList = ['/'] ∨
      ∀ segment ∈ trimmedLast (page.document.address site.id site.index), segment.test.Legible := by
  obtain ⟨used, hused, rfl⟩ := map_eq_ok.mp hpath
  have hsegments := (List.forall₂_and_left _ _).mpr
    ⟨Document.named_address hparse, mapM_eq_ok.mp hused⟩
  have husable := hsegments.imp fun _ _ h => usableSegment_fromMarkup hprefixes h.1 h.2
  rw [parse_renderAddress_iff ((List.forall₂_and_left _ _).mp husable.flip).1,
    legible_trimmedLast (husable.imp fun _ _ h => h.2)]

def instructionMarkup : String := "<r xmlns:p='u'><?t x?><p:a·/></r>"

def instructionPage : Page where
  serial := 0
  document := .ofMarkup instructionMarkup
  prefixes := { entries := [("p", "u")] }

theorem parse_instructionMarkup :
    Document.parse instructionMarkup = .ok instructionPage.document := by
  have hok : (Document.parse instructionMarkup).isOk = true := by decide +kernel
  rw [Document.parse_ofMarkup hok, instructionPage]

/-- The path of an instruction is no query. -/
theorem instruction_path_rejected :
    Document.parse instructionMarkup = .ok instructionPage.document ∧
      instructionPage.document.isAttached 2 = true ∧
      instructionPage.contextPath (.node 2) = .ok "/r/processing-instruction('t')" ∧
      ¬ ∃ e, Query.parse "/r/processing-instruction('t')" = .ok e := by
  refine ⟨parse_instructionMarkup, by decide +kernel, by decide +kernel, ?_⟩
  rintro ⟨e, he⟩
  have herror : (Query.parse "/r/processing-instruction('t')").isOk = false := by decide +kernel
  rw [he] at herror
  cases herror

/-- The path of the root element is a query, and that of the element below is none. -/
theorem parse_contextPath_iff_instructionPage :
    instructionPage.contextPath (.node 1) = .ok "/r" ∧
      instructionPage.contextPath (.node 3) = .ok "/r/p:a·" ∧
      (∃ e, Query.parse "/r" = .ok e) ∧ ¬ ∃ e, Query.parse "/r/p:a·" = .ok e := by
  have hprefixes : ∀ entry ∈ instructionPage.prefixes.entries, IsPlain entry.1 := by
    decide +kernel
  have hroot : instructionPage.contextPath (.node 1) = .ok "/r" := by decide +kernel
  have hbelow : instructionPage.contextPath (.node 3) = .ok "/r/p:a·" := by decide +kernel
  have hread := parse_contextPath_iff parse_instructionMarkup hprefixes hroot
  have hrejected := parse_contextPath_iff parse_instructionMarkup hprefixes hbelow
  refine ⟨hroot, hbelow, hread.mpr (.inr (by decide +kernel)), fun hparsed => ?_⟩
  rcases hrejected.mp hparsed with hslash | hlegible
  · exact absurd hslash (by decide +kernel)
  · exact absurd hlegible (by decide +kernel)

end MarkupQuery.Page
