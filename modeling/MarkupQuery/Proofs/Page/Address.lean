import MarkupQuery.Proofs.Page.Reachable
import MarkupQuery.Proofs.Page.Segments
import MarkupQuery.Proofs.Tree.Preorder

namespace MarkupQuery.Query

variable {s : Setting} {k size position : Nat} {sites : List Site}

/-- A number in brackets keeps the site at that position. -/
theorem keepWhere_position {test : Focus → Except Error Value} (hpos : 0 < k) (hk : k < 2 ^ 53)
    (htest : ∀ focus, test focus = .ok (.number (Float.ofNat k))) (hposition : 0 < position)
    (hsites : position + sites.length ≤ 2 ^ 53) :
    keepWhere test size position sites =
      .ok (if position ≤ k then sites[k - position]?.toList else []) := by
  induction sites generalizing position with
  | nil => simp [keepWhere]
  | cons site rest ih =>
    rw [List.length_cons] at hsites
    have hholds : (Value.number (Float.ofNat k)).holdsAt position = decide (k = position) := by
      have hiff := Number.ofNat_beq hk hpos (show position < 2 ^ 53 by omega) hposition
      rw [Bool.eq_iff_iff, decide_eq_true_iff]
      exact hiff
    rw [keepWhere, htest, ih (by omega) (by omega)]
    simp only [bind, Except.bind, pure, Except.pure, hholds, decide_eq_true_eq]
    congr 1
    -- behind place `k` nothing is kept, in front of it the search goes on
    rcases Nat.lt_trichotomy k position with hlt | rfl | hlt
    · simp [show ¬ k = position by omega, show ¬ position ≤ k by omega,
        show ¬ position + 1 ≤ k by omega]
    · simp
    · have hindex : k - position = (k - (position + 1)) + 1 := by omega
      simp [show ¬ k = position by omega, show position ≤ k by omega, hindex,
        show position + 1 ≤ k by omega]

theorem keepAll_position (hpos : 0 < k) (hk : k < 2 ^ 53) (hsites : sites.length < 2 ^ 53) :
    keepAll s [.number (Float.ofNat k)] sites = .ok sites[k - 1]?.toList := by
  refine keepAll_cons.mpr ⟨_, ?_, keepAll_nil s _⟩
  rw [keepWhere_position hpos hk (fun focus => by simp [evaluate]) (by omega) (by omega),
    if_pos (show 1 ≤ k from hpos)]

end MarkupQuery.Query

namespace MarkupQuery.Tree

open MarkupQuery.Query

variable {doc : Document} {kids : NodeId → List NodeId} {id parent : NodeId} {test : SegmentTest}
  {segment : Segment}

def Payload.isInstruction : Payload → Bool
  | .instruction _ _ => true
  | _ => false

/-- A segment that a query can ask for: a prefix comes with a namespace, the name of no instruction
is asked for, and a position is a number that is not rounded. -/
structure Segment.Sound (segment : Segment) : Prop where
  qualified : segment.test.qualifier.isSome → segment.test.namespaceUri.isSome
  noInstruction : segment.test.isInstruction = false
  position : ∀ k ∈ segment.position, 0 < k ∧ k < 2 ^ 53

namespace Document

def alike (doc : Document) (parent id : NodeId) : List NodeId :=
  (doc.children parent).filter fun sibling => isAlike (doc.payload id) (doc.payload sibling)

theorem position?_eq (hp : doc.parent id = some parent) : doc.position? id =
    if (doc.alike parent id).length > 1 then ((doc.alike parent id).idxOf? id).map (· + 1)
    else none := by
  simp [position?, hp, alike]

theorem segment?_eq_some : doc.segment? id = some segment ↔
    segmentTest? (doc.payload id) = some segment.test ∧ segment.position = doc.position? id := by
  obtain ⟨test, position⟩ := segment
  simp [segment?, eq_comm]

theorem isInstruction_of_segmentTest? {payload : Payload} (h : segmentTest? payload = some test) :
    test.isInstruction = payload.isInstruction := by
  cases payload <;> simp [segmentTest?] at h <;> subst h <;> rfl

theorem axis_of_segmentTest? {payload : Payload} (h : segmentTest? payload = some test) :
    test.axis = .child := by
  cases payload <;> simp [segmentTest?] at h <;> subst h <;> rfl

/-- The test of a node is passed by those that are alike. -/
theorem admits_resolved (h : segmentTest? (doc.payload id) = some test)
    (hi : test.isInstruction = false) (other : NodeId) :
    test.resolved.admits doc .child (.node other) =
      isAlike (doc.payload id) (doc.payload other) := by
  -- elements are told apart by name and namespace, other nodes by their kind alone
  cases hp : doc.payload id with
  | document => simp [hp, segmentTest?] at h
  | instruction target data =>
    simp only [hp, segmentTest?, Option.some.injEq] at h
    simp [← h, SegmentTest.isInstruction] at hi
  | element e =>
    simp only [hp, segmentTest?, Option.some.injEq] at h
    subst h
    cases ho : doc.payload other with
    | element o =>
      rw [Bool.eq_iff_iff]
      simp only [SegmentTest.resolved, ResolvedTest.admits, Axis.principal, Site.kind, Site.node,
        Site.name?, Site.namespaceUri?, namespaceUri?, element?, Payload.element?, ho, isAlike,
        segmentTest?, SegmentTest.withQualifier]
      simp
      exact ⟨fun h => ⟨h.2.symm, h.1.symm⟩, fun h => ⟨h.2.symm, h.1.symm⟩⟩
    | _ =>
      simp [SegmentTest.resolved, ResolvedTest.admits, Axis.principal, Site.kind, Site.node, ho,
        isAlike, segmentTest?, SegmentTest.withQualifier] <;> rfl
  | text | comment =>
    simp only [hp, segmentTest?, Option.some.injEq] at h
    subst h
    cases ho : doc.payload other <;>
      simp [SegmentTest.resolved, ResolvedTest.admits, NodeType.admits, Site.kind, Site.node, ho,
        isAlike, segmentTest?, SegmentTest.withQualifier]

end Document

namespace Forest

theorem mem_alike (h : Forest doc doc.children) (hp : doc.parent id = some parent)
    (hs : doc.segment? id = some segment) : id ∈ doc.alike parent id := by
  refine List.mem_filter.mpr ⟨(h.mem_kids id parent).mpr hp, ?_⟩
  obtain ⟨htest, -⟩ := Document.segment?_eq_some.mp hs
  simp [Document.isAlike, htest]

theorem length_alike_le (h : Forest doc doc.children) (parent id : NodeId) :
    (doc.alike parent id).length ≤ doc.size :=
  List.length_filter_le _ _ |>.trans
    (length_le_of_nodup (h.nodup parent) fun _ hc => h.kids_lt hc)

theorem isInstruction_of_parent (h : Forest doc kids) (hp : doc.parent id = some parent) :
    (doc.payload parent).isInstruction = false := by
  cases hpayload : doc.payload parent with
  | instruction target data =>
    have hmem := (h.mem_kids id parent).mpr hp
    rw [h.leaf parent (by rw [hpayload]; rfl)] at hmem
    cases hmem
  | _ => rfl

theorem segment?_of_parent (h : Forest doc kids) (hp : doc.parent id = some parent) :
    ∃ segment, doc.segment? id = some segment := by
  unfold Document.segment?
  cases hpayload : doc.payload id with
  | document => simp [h.document id hpayload] at hp
  | _ => exact ⟨_, rfl⟩

theorem sound_segment? (h : Forest doc doc.children) (he : doc.Every Element.Qualified)
    (hf : doc.Fits) (hp : doc.parent id = some parent)
    (hi : (doc.payload id).isInstruction = false) (hs : doc.segment? id = some segment) :
    segment.Sound := by
  obtain ⟨htest, hposition⟩ := Document.segment?_eq_some.mp hs
  refine ⟨?_, (Document.isInstruction_of_segmentTest? htest).trans hi, fun k hk => ?_⟩
  · cases hpayload : doc.payload id with
    | element e =>
      rw [hpayload, Document.segmentTest?, Option.some.injEq] at htest
      rw [← htest]
      exact (he id e hpayload).element
    | document => simp [hpayload, Document.segmentTest?] at htest
    | _ =>
      rw [hpayload, Document.segmentTest?, Option.some.injEq] at htest
      rw [← htest]
      simp [SegmentTest.qualifier]
  · rw [hposition, Document.position?_eq hp] at hk
    split at hk
    · obtain ⟨i, hi, rfl⟩ := Option.map_eq_some_iff.mp hk
      obtain ⟨hlt, -, -⟩ := List.idxOf?_eq_some_iff.mp hi
      have hle := h.length_alike_le parent id
      have hsize : doc.size ≤ 0xFFFFFFFF := hf
      omega
    · cases hk

/-- The address of a node is that of its parent and a segment for the node itself. -/
theorem address_child (h : Forest doc kids) (hp : doc.parent id = some parent)
    (hs : doc.segment? id = some segment) :
    doc.address id none = doc.address parent none ++ [segment] := by
  simp [Document.address, h.ancestors_eq hp, hs]

theorem address_root (h : Forest doc kids) : doc.address Document.root none = [] := by
  simp [Document.address, h.ancestors_top h.parent_root, Document.segment?, h.root_payload,
    Document.segmentTest?]

/-- On the path to a node there are elements only, and the node itself. -/
theorem sound_address (h : Forest doc doc.children) (he : doc.Every Element.Qualified)
    (hf : doc.Fits) (hid : doc.Within id Document.root)
    (hi : (doc.payload id).isInstruction = false) :
    ∀ segment ∈ doc.address id none, segment.Sound := by
  induction hid using Relation.ReflTransGen.head_induction_on with
  | refl => simp [h.address_root]
  | @head id parent hp _ ih =>
    obtain ⟨segment, hs⟩ := h.segment?_of_parent hp
    rw [h.address_child hp hs]
    intro other hother
    rcases List.mem_append.mp hother with hother | hother
    · exact ih (h.isInstruction_of_parent hp) other hother
    · obtain rfl := List.mem_singleton.mp hother
      exact h.sound_segment? he hf hp hi hs

end Forest

end MarkupQuery.Tree

namespace MarkupQuery.Page

open MarkupQuery.Query MarkupQuery.Tree

variable {page : Page} {id parent : NodeId} {segment used : Segment} {test : NodeTest}

/-- The step of a segment leads from the parent of a node to the node alone. -/
theorem takeStep_segment (h : Forest page.document page.document.children)
    (hf : page.document.Fits) (hp : page.document.parent id = some parent)
    (hs : page.document.segment? id = some segment)
    (hi : segment.test.isInstruction = false)
    (hr : test.resolve page.prefixes.entries = .ok segment.test.resolved) :
    takeStep page.setting (.mk .child test
      (segment.position.map fun k => Expr.number (Float.ofNat k)).toList) [.node parent] =
        .ok [.node id] := by
  obtain ⟨htest, hposition⟩ := Document.segment?_eq_some.mp hs
  have hsites : (Axis.child.sites page.document (.node parent)).filter
      (segment.test.resolved.admits page.document .child) =
        (page.document.alike parent id).map Site.node := by
    change ((page.document.children parent).map Site.node).filter _ = _
    rw [List.filter_map, Document.alike]
    congr 2
    funext other
    exact Document.admits_resolved htest hi other
  have hmem := h.mem_alike hp hs
  have hlength := h.length_alike_le parent id
  have hsize : page.document.size ≤ 0xFFFFFFFF := hf
  refine takeStep_eq_ok.mpr ⟨_, [[.node id]], hr, .cons ?_ .nil, rfl⟩
  unfold foundFrom
  change keepAll page.setting _ ((Axis.child.sites page.document (.node parent)).filter
    (segment.test.resolved.admits page.document .child)) = _
  rw [hsites, hposition, Document.position?_eq hp]
  -- the only one of its kind has no position, and then the test alone leads to it
  split
  · obtain ⟨i, hi⟩ := Option.isSome_iff_exists.mp (List.isSome_idxOf?.mpr hmem)
    obtain ⟨hlt, hget, -⟩ := List.idxOf?_eq_some_iff.mp hi
    rw [hi]
    change keepAll page.setting [.number (Float.ofNat (i + 1))] _ = _
    rw [keepAll_position (by omega) (by omega) (by rw [List.length_map]; omega)]
    simp [hlt, hget]
  · rename_i hone
    change keepAll page.setting [] _ = _
    obtain ⟨other, hother⟩ := List.length_eq_one_iff.mp
      (show (page.document.alike parent id).length = 1 from
        Nat.le_antisymm (Nat.le_of_not_lt hone) (List.length_pos_of_mem hmem))
    rw [hother, List.mem_singleton] at hmem
    rw [hother, keepAll_nil, hmem]
    rfl

/-- A segment of the address that is usable on the page. -/
theorem step_of_usable (h : page.Sound) (hs : segment.Sound)
    (hu : usableSegment page.prefixes segment = .ok used) :
    ∃ test, used.step = .mk segment.test.axis test
        (segment.position.map fun k => Expr.number (Float.ofNat k)).toList ∧
      test.resolve page.prefixes.entries = .ok segment.test.resolved := by
  obtain ⟨qualifier, rfl, hfitting⟩ := usableSegment_eq_ok h.prefixes hs.qualified hu
  exact ⟨_, by simp [Segment.step], hfitting.resolve⟩

/-- The steps of an address lead from the document node to the node alone. -/
theorem takeSteps_address (h : page.Sound) (hf : page.document.Fits)
    (hid : page.document.Within id Document.root)
    (hi : (page.document.payload id).isInstruction = false) {used : List Segment}
    (hu : (page.document.address id none).mapM (usableSegment page.prefixes) = .ok used) :
    takeSteps page.setting (used.map Segment.step) [.document] = .ok [.node id] := by
  have hforest := h.document.forest
  induction hid using Relation.ReflTransGen.head_induction_on generalizing used with
  | refl =>
    rw [hforest.address_root] at hu
    obtain rfl := Except.ok.inj hu
    exact takeSteps_nil page.setting _
  | @head id parent hp _ ih =>
    obtain ⟨segment, hs⟩ := hforest.segment?_of_parent hp
    rw [hforest.address_child hp hs, mapM_concat_eq_ok] at hu
    obtain ⟨front, last, hfront, hlast, rfl⟩ := hu
    have hsegment := hforest.sound_segment? h.document.qualified hf hp hi hs
    obtain ⟨htest, -⟩ := Document.segment?_eq_some.mp hs
    obtain ⟨test, hstep, hresolve⟩ := step_of_usable h hsegment hlast
    have hinner := hforest.isInstruction_of_parent hp
    -- the steps in front are those of the parent, which they lead to
    rw [List.map_append, takeSteps_append, ih hinner hfront]
    change takeSteps page.setting [last.step] [.node parent] = _
    rw [takeSteps_cons, hstep, Document.axis_of_segmentTest? htest,
      takeStep_segment hforest hf hp hs hsegment.noInstruction hresolve]
    exact takeSteps_nil page.setting _

/-- The step of an attribute leads from its owner to it alone, if no other attribute of the owner has
its name and namespace. -/
theorem takeStep_attribute {i : Nat} {a : Attribute}
    (ha : (page.document.attributes id)[i]? = some a)
    (hunique : ∀ j b, (page.document.attributes id)[j]? = some b → b.name = a.name →
      b.namespaceUri = a.namespaceUri → j = i)
    (hr : test.resolve page.prefixes.entries = .ok (.name a.namespaceUri a.name)) :
    takeStep page.setting (.mk .attribute test []) [.node id] = .ok [⟨id, some i⟩] := by
  -- attributes are tested one by one, and `i` alone has the name and the namespace
  have hadmits : ∀ j ∈ List.range (page.document.attributes id).length,
      (ResolvedTest.name a.namespaceUri a.name).admits page.document .attribute ⟨id, some j⟩ =
        (j == i) := by
    intro j hj
    obtain ⟨b, hb⟩ : ∃ b, (page.document.attributes id)[j]? = some b :=
      ⟨_, List.getElem?_eq_getElem (List.mem_range.mp hj)⟩
    rw [Bool.eq_iff_iff, beq_iff_eq]
    simp only [ResolvedTest.admits, Axis.principal, Site.kind, Site.namespaceUri?, Site.name?,
      Site.attribute?, Option.isSome_some, if_true, Option.bind_some, hb, Option.map_some,
      Option.any_some, beq_self_eq_true, Bool.true_and, Bool.and_eq_true, beq_iff_eq]
    refine ⟨fun h => hunique j b hb h.2 h.1, ?_⟩
    rintro rfl
    obtain rfl := Option.some.inj (ha.symm.trans hb)
    exact ⟨rfl, rfl⟩
  have hi : i ∈ List.range (page.document.attributes id).length :=
    List.mem_range.mpr (List.getElem?_eq_some_iff.mp ha).1
  refine takeStep_eq_ok.mpr ⟨_, [[⟨id, some i⟩]], hr, .cons ?_ .nil, rfl⟩
  change keepAll page.setting [] (((List.range _).map fun j => (⟨id, some j⟩ : Site)).filter _) = _
  rw [keepAll_nil, List.filter_map]
  have hfilter : (List.range (page.document.attributes id).length).filter
      ((ResolvedTest.name a.namespaceUri a.name).admits page.document .attribute ∘
        fun j => (⟨id, some j⟩ : Site)) = [i] := by
    refine (List.filter_congr hadmits).trans ?_
    rw [List.filter_beq, List.count_eq_one_of_mem List.nodup_range hi]
    rfl
  exact congrArg Except.ok (congrArg (List.map fun j => (⟨id, some j⟩ : Site)) hfilter)

/-- What an address can single out: an element, a text, a comment, or an attribute whose name and
namespace no other attribute of its owner has. -/
def Designable (document : Document) (site : Site) : Prop :=
  match site.index with
  | none => site.kind document ∈ [Kind.element, .text, .comment]
  | some i => ∃ a, (document.attributes site.id)[i]? = some a ∧
      ∀ j b, (document.attributes site.id)[j]? = some b → b.name = a.name →
        b.namespaceUri = a.namespaceUri → j = i

/-- A usable segment is written so that it can be read, with prefixes that the page knows. -/
theorem writable_of_usable (h : page.Sound) (hs : segment.Sound)
    (hprefixes : ∀ entry ∈ page.prefixes.entries, IsPlain entry.1)
    (hname : ∀ name ∈ segment.test.name?, IsPlain name)
    (hu : usableSegment page.prefixes segment = .ok used) :
    used.Writable ∧ ∀ q ∈ used.test.nodeTest.qualifiers, ∃ uri, page.prefixes.uri? q = some uri := by
  obtain ⟨qualifier, rfl, hfitting⟩ := usableSegment_eq_ok h.prefixes hs.qualified hu
  exact ⟨⟨hfitting.printable hprefixes hname, by simp [hs.noInstruction], hs.position⟩,
    hfitting.bound⟩

theorem qualifiers_step (segment : Segment) :
    segment.step.qualifiers = segment.test.nodeTest.qualifiers := by
  obtain ⟨test, position⟩ := segment
  cases position <;> simp [Segment.step, Step.qualifiers, listQualifiers, Expr.qualifiers]

theorem select_renderAddress {segments : List Segment} {sites : List Site}
    (hw : ∀ segment ∈ segments, segment.Writable ∧
      ∀ q ∈ segment.test.nodeTest.qualifiers, ∃ uri, page.prefixes.uri? q = some uri)
    (ht : takeSteps page.setting (segments.map Segment.step) [.document] = .ok sites) :
    select page.setting .document (renderAddress segments) = .ok sites := by
  refine select_eq_ok.mpr ⟨_, parse_renderAddress fun segment hs => (hw segment hs).1, ?_, ?_⟩
  · refine List.find?_eq_none.mpr fun q hq => ?_
    obtain ⟨step, hstep, hq⟩ := mem_stepsQualifiers.mp hq
    obtain ⟨segment, hsegment, rfl⟩ := List.mem_map.mp hstep
    rw [qualifiers_step] at hq
    obtain ⟨uri, huri⟩ := (hw segment hsegment).2 q hq
    have hlookup : page.setting.bindings.lookup q = some uri := huri
    simp [hlookup]
  · rw [evaluate]
    exact map_eq_ok.mpr ⟨sites, ht, rfl⟩

theorem address_attribute {document : Document} {i : Nat} {a : Attribute}
    (ha : (document.attributes id)[i]? = some a) :
    document.address id (some i) =
      document.address id none ++ [⟨.attribute a.qualifier a.name a.namespaceUri, none⟩] := by
  simp [Document.address, Document.attributeSegment?, ha]

theorem exists_element_of_attribute {document : Document} {i : Nat} {a : Attribute}
    (ha : (document.attributes id)[i]? = some a) :
    ∃ e, document.payload id = .element e ∧ a ∈ e.attributes := by
  obtain ⟨e, he, hmem⟩ := Document.mem_attributes.mp (List.mem_of_getElem? ha)
  exact ⟨e, Document.element?_eq_some.mp he, hmem⟩

theorem isInstruction_of_designable {site : Site} (h : Designable page.document site) :
    (page.document.payload site.id).isInstruction = false := by
  obtain ⟨id, index⟩ := site
  cases index with
  | none =>
    cases hp : page.document.payload id with
    | instruction target data => simp [Designable, Site.kind, hp] at h
    | _ => rfl
  | some i =>
    obtain ⟨a, ha, -⟩ := h
    obtain ⟨e, he, -⟩ := exists_element_of_attribute ha
    rw [he]
    rfl

/-- The address of what it can single out, made of names that a query can contain, selects it and
nothing else, if the prefixes of the page can be in a query too. -/
theorem Reachable.select_contextPath (h : page.Reachable) {site : Site} {path : String}
    (hattached : page.document.isAttached site.id = true) (hd : Designable page.document site)
    (hnames : ∀ segment ∈ page.document.address site.id site.index,
      ∀ name ∈ segment.test.name?, IsPlain name)
    (hprefixes : ∀ entry ∈ page.prefixes.entries, IsPlain entry.1)
    (hpath : page.contextPath site = .ok path) :
    select page.setting .document path = .ok [site] := by
  have hsound := h.sound
  have hforest := hsound.document.forest
  have hid := hforest.isAttached_iff.mp hattached
  have hi := isInstruction_of_designable hd
  obtain ⟨used, hused, rfl⟩ := map_eq_ok.mp hpath
  have habove := hforest.sound_address hsound.document.qualified h.fits hid hi
  obtain ⟨hsegments, ht⟩ : (∀ segment ∈ page.document.address site.id site.index, segment.Sound) ∧
      takeSteps page.setting (used.map Segment.step) [.document] = .ok [site] := by
    obtain ⟨id, index⟩ := site
    cases index with
    | none => exact ⟨habove, takeSteps_address hsound h.fits hid hi hused⟩
    | some i =>
      obtain ⟨a, ha, hunique⟩ := hd
      obtain ⟨e, he, hmem⟩ := exists_element_of_attribute ha
      have hlast : Segment.Sound ⟨.attribute a.qualifier a.name a.namespaceUri, none⟩ :=
        ⟨(hsound.document.qualified id e he).attributes a hmem, rfl, by simp⟩
      rw [address_attribute ha] at hused ⊢
      obtain ⟨front, last, hfront, husable, rfl⟩ := mapM_concat_eq_ok.mp hused
      refine ⟨List.forall_mem_append.mpr ⟨habove, by simpa using hlast⟩, ?_⟩
      obtain ⟨test, hstep, hresolve⟩ := step_of_usable hsound hlast husable
      rw [List.map_append, takeSteps_append, takeSteps_address hsound h.fits hid hi hfront]
      change takeSteps page.setting [last.step] [.node id] = _
      rw [takeSteps_cons, hstep]
      change (takeStep page.setting (.mk .attribute test []) [.node id] >>= _) = _
      rw [takeStep_attribute ha hunique hresolve]
      exact takeSteps_nil page.setting _
  refine select_renderAddress (fun segment hs => ?_) ht
  obtain ⟨original, horiginal, husable⟩ := exists_of_mem_mapM hused hs
  exact writable_of_usable hsound (hsegments original horiginal) hprefixes
    (hnames original horiginal) husable

def sampleMarkup : String := "<r xmlns:p='u'><p:a/><x:a xmlns:x='u' k='1' x:k='2'/></r>"

def samplePage : Page := .ofMarkup sampleMarkup

def sampleEdited : Page := (Edit.prepend (.markup "<p:a/>") .whole).apply samplePage

theorem parse_samplePage : Page.parse 0 sampleMarkup {} = .ok samplePage :=
  parse_ofMarkup (by decide +kernel)

theorem reachable_sampleEdited : sampleEdited.Reachable := by
  have hfits : samplePage.document.size ≤ 0xFFFFFFFF ∧
      sampleEdited.document.size ≤ 0xFFFFFFFF := by decide +kernel
  exact .edit (.parse parse_samplePage hfits.1) _
    (by simp [Edit.sources, Content.sources, Context.sources]) hfits.2

/-- The prefix that the element and its attribute are written with is not known to the page. -/
theorem select_contextPath_sampleEdited : sampleEdited.Reachable ∧
    sampleEdited.contextPath ⟨3, some 1⟩ = .ok "/r/p:a[3]/@p:k" ∧
    select sampleEdited.setting .document "/r/p:a[3]/@p:k" = .ok [⟨3, some 1⟩] := by
  have hvalues : sampleEdited.contextPath ⟨3, some 1⟩ = .ok "/r/p:a[3]/@p:k" ∧
      sampleEdited.document.attributes 3 =
        [⟨"k", "1", none, none⟩, ⟨"k", "2", some "x", some "u"⟩] ∧
      sampleEdited.document.isAttached 3 = true ∧
      (∀ segment ∈ sampleEdited.document.address 3 (some 1),
        ∀ name ∈ segment.test.name?, IsPlain name) ∧
      ∀ entry ∈ sampleEdited.prefixes.entries, IsPlain entry.1 := by decide +kernel
  obtain ⟨hpath, hattributes, hattached, hnames, hprefixes⟩ := hvalues
  have hd : Designable sampleEdited.document ⟨3, some 1⟩ := by
    refine ⟨⟨"k", "2", some "x", some "u"⟩, by rw [hattributes]; rfl, fun j b hb _ huri => ?_⟩
    rw [hattributes] at hb
    match j with
    | 0 =>
      obtain rfl := Option.some.inj hb
      cases huri
    | 1 => rfl
    | j + 2 => cases hb
  exact ⟨reachable_sampleEdited, hpath,
    reachable_sampleEdited.select_contextPath hattached hd hnames hprefixes hpath⟩

end MarkupQuery.Page
