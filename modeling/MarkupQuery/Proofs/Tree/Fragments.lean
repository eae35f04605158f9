import MarkupQuery.Proofs.Tree.Declared
import MarkupQuery.Proofs.Tree.Extended
import MarkupQuery.Proofs.Tree.InStep

namespace MarkupQuery

open MarkupQuery.Xml

namespace Xml

open MarkupQuery.Text

/-- The events behind the start tag of a root element without declared entities. -/
def behindStartTag? (s : List Char) : Option (List Event) := do
  let scope : Scope := { entities := [] }
  let (inside, rest, _) ←
    contentUpTo scope (contentEntity [] scope.depth) (s.length + 1) 0 true 0 s
  let (after, rest) ← misc? rest
  if rest.isEmpty then some (inside ++ after) else none

/-- A document that begins with a start tag begins with its root element. -/
theorem read?_startTag_bind {tag : StartTag} (h : tag.name.Legible) (rest : List Char) :
    read? (tag.chars ++ rest) = (element? [] (tag.chars ++ rest)).bind fun (content, rest) =>
      (misc? rest).bind fun (after, rest) =>
        if rest.isEmpty then some (content ++ after) else none := by
  have hends : EndsMisc (tag.chars ++ rest) := endsMisc_startTag h rest
  obtain ⟨s, hs⟩ : ∃ s, tag.chars ++ rest = '<' :: s := ⟨_, rfl⟩
  have hmark : afterMark (tag.chars ++ rest) = tag.chars ++ rest := by
    rw [hs]
    rfl
  have hskip : skipSpace (tag.chars ++ rest) = tag.chars ++ rest := by
    rw [hs]
    exact skipSpace_of_head (by simp; decide)
  have hplain : ∀ event ∈ ([] : List Xml.Event), event.Plain := List.forall_mem_nil _
  have hmisc : misc? (tag.chars ++ rest) = some ([], tag.chars ++ rest) :=
    misc?_chars hplain (List.forall_mem_nil _) hends
  have hdoctype : afterStart? "<!DOCTYPE".toList (tag.chars ++ rest) = none := by
    rcases hends with hnil | ⟨c, s, hs, hc, -⟩
    · simp [StartTag.chars] at hnil
    · rw [hs]
      simp [afterStart?, hc.symm]
  have hprolog : prolog? (tag.chars ++ rest) = some ([], [], tag.chars ++ rest) := by
    rw [prolog?, not_declaration_of_endsMisc hends]
    simp only [Bool.false_eq_true, if_false, Option.bind_eq_bind, Option.bind_some, hmisc, hdoctype]
    rfl
  simp only [read?, hmark, hprolog, hskip, Option.bind_eq_bind, Option.bind_some, List.nil_append]

theorem startTag_chars_append (tag : StartTag) (rest : List Char) : tag.chars ++ rest =
    '<' :: (tag.name.chars ++ (tag.attributes.flatMap Written.chars ++
      (tag.ending.chars ++ rest))) := by
  simp [StartTag.chars]

/-- What begins with a start tag gives this tag first, as it is read. -/
theorem read?_readable {tag : StartTag} (h : tag.Readable) (hending : tag.ending = .content)
    (rest : List Char) : read? (tag.chars ++ rest) =
      (behindStartTag? rest).map (.startTag tag.normalized :: ·) := by
  have hn : Scope.nested { entities := [] } = false := rfl
  have hcontent : tag.normalized.ending = .content := hending
  rw [read?_startTag_bind h.name, startTag_chars_append, element?]
  simp only [startTag?_readable hn 0 h, Option.bind_eq_bind, Option.bind_some, hcontent, if_true,
    behindStartTag?]
  cases contentUpTo { entities := [] } (contentEntity [] _) (rest.length + 1) 0 true 0 rest with
  | none => rfl
  | some content =>
    obtain ⟨inside, behind, references⟩ := content
    cases hmisc : misc? behind with
    | none => simp [hmisc]
    | some after =>
      simp [hmisc]

/-- It is not read if a value of the tag holds a character that markup forbids. -/
theorem read?_unreadable {tag : StartTag} (h : tag.name.Legible) (he : tag.ending ≠ .missing)
    (ha : ∀ a ∈ tag.attributes, a.name.Legible)
    (hv : ¬ ∀ a ∈ tag.attributes, ∀ c ∈ a.value.toList, isChar c = true) (rest : List Char) :
    read? (tag.chars ++ rest) = none := by
  have hn : Scope.nested { entities := [] } = false := rfl
  rw [read?_startTag_bind h, startTag_chars_append, element?]
  simp only [startTag?_unreadable hn 0 h he ha hv, Option.bind_eq_bind, Option.bind_none]

theorem read?_startTag {tag : StartTag} {rest : List Char} {events : List Event} (h : tag.Plain)
    (hending : tag.ending = .content) (hread : read? (tag.chars ++ rest) = some events) :
    ∃ more, events = .startTag tag :: more := by
  rw [read?_readable h.readable hending, h.normalized_eq, Option.map_eq_some_iff] at hread
  obtain ⟨more, -, rfl⟩ := hread
  exact ⟨more, rfl⟩

end Xml

namespace Tree

section First

variable {e : Element} {tree : Subtree} {trees : List Subtree}

def firstElement? (trees : List Subtree) : Option Element :=
  trees.findSome? fun tree => tree.payload.element?

namespace Assembly

variable {a new : Assembly}

def firstElement? (a : Assembly) : Option Element :=
  (Tree.firstElement? a.top.reverse).or (a.opened.getLast?.map OpenElement.element)

theorem firstElement?_put (h : a.firstElement? = some e) : (a.put tree).firstElement? = some e := by
  unfold Assembly.put
  cases hopened : a.opened with
  | nil =>
    have htop : Tree.firstElement? a.top.reverse = some e := by
      simpa [Assembly.firstElement?, hopened] using h
    have hmore : Tree.firstElement? (a.top.reverse ++ [tree]) = some e := by
      rw [Tree.firstElement?, List.findSome?_append, ← Tree.firstElement?, htop]
      rfl
    simp [Assembly.firstElement?, hmore]
  | cons o outer =>
    rw [Assembly.firstElement?, hopened] at h
    cases outer <;> simpa [Assembly.firstElement?] using h

theorem firstElement?_endText (h : a.firstElement? = some e) : a.endText.firstElement? = some e := by
  unfold Assembly.endText
  split
  · exact h
  · exact firstElement?_put (a := { a with pieces := [] }) h

theorem firstElement?_startTag {tag : StartTag} (h : a.firstElement? = some e)
    (ho : a.startTag? tag = some new) : new.firstElement? = some e := by
  obtain ⟨-, _, _, -, -, hcases⟩ := startTag?_eq_some ho
  rcases hcases with ⟨-, rfl⟩ | ⟨_, _, -, ⟨-, rfl⟩ | ⟨-, rfl⟩⟩
  · exact h
  · exact firstElement?_put (a := a.settled) h
  · -- what is opened inside comes in front of the elements that are open
    rw [Assembly.firstElement?] at h ⊢
    cases hopened : a.opened with
    | nil =>
      have htop : Tree.firstElement? a.top.reverse = some e := by simpa [hopened] using h
      simp [Assembly.settled, htop]
    | cons o outer => simpa [Assembly.settled, hopened] using h

theorem firstElement?_endTag {name : QName} (h : a.firstElement? = some e)
    (ho : a.endTag? name = some new) : new.firstElement? = some e := by
  obtain ⟨o, outer, hopened, rfl⟩ := endTag?_eq_some ho
  cases outer with
  | nil =>
    -- the element that was opened first is closed, and comes behind the trees that are there
    have hlast : (Tree.firstElement? a.top.reverse).or (some o.element) = some e := by
      simpa [Assembly.firstElement?, hopened] using h
    simpa [Assembly.firstElement?, Assembly.put, Assembly.settled, Tree.firstElement?,
      List.findSome?_append, Payload.element?, Subtree.payload] using hlast
  | cons o' outer =>
    refine firstElement?_put ?_
    simpa [Assembly.firstElement?, hopened, Assembly.settled] using h

theorem firstElement?_step {event : Event} (h : a.firstElement? = some e)
    (ho : a.step? event = some new) : new.firstElement? = some e := by
  cases event with
  | startTag tag => exact firstElement?_startTag (firstElement?_endText h) ho
  | endTag name => exact firstElement?_endTag (firstElement?_endText h) ho
  | text content =>
    obtain rfl := Option.some.inj ho
    exact h
  | comment content | instruction target data =>
    obtain rfl := Option.some.inj ho
    exact firstElement?_put (firstElement?_endText h)

theorem firstElement?_run {events : List Event} (h : a.firstElement? = some e)
    (ho : events.foldlM Assembly.step? a = some new) : new.firstElement? = some e := by
  induction events generalizing a with
  | nil => exact Option.some.inj ho ▸ h
  | cons event events ih =>
    simp only [List.foldlM_cons, Option.bind_eq_bind, Option.bind_eq_some_iff] at ho
    obtain ⟨next, hstep, ho⟩ := ho
    exact ih (firstElement?_step h hstep) ho

end Assembly

/-- The element of a first tag that does not close it at once comes first. -/
theorem firstElement?_of_startTag {tag : StartTag} {more : List Event}
    (hending : tag.ending = .content) (h : assembled? (.startTag tag :: more) = some trees) :
    ∃ e own scope written, ownDeclarations? [] tag.attributes = some own ∧
      resolvedElement? [] own tag.name written = some (e, scope) ∧ firstElement? trees = some e := by
  simp only [assembled?, List.foldlM_cons, Option.bind_eq_bind, Option.bind_eq_some_iff] at h
  obtain ⟨a, ⟨start, hstart, hrun⟩, hfinish⟩ := h
  obtain ⟨-, own, written, hown, -, hcases⟩ :=
    Assembly.startTag?_eq_some (show Assembly.startTag? {} tag = some start from hstart)
  rcases hcases with ⟨hmissing, -⟩ | ⟨e, scope, hread, ⟨hempty, -⟩ | ⟨-, rfl⟩⟩
  · simp [hending] at hmissing
  · simp [hending] at hempty
  · have hfirst : a.firstElement? = some e := Assembly.firstElement?_run rfl hrun
    refine ⟨e, own, scope, written, hown, hread, ?_⟩
    obtain ⟨⟨hclosed, -⟩, rfl⟩ := Assembly.finish?_eq_some.mp hfinish
    have htop : firstElement? a.top.reverse = some e := by
      simpa [Assembly.firstElement?, hclosed] using hfirst
    rw [firstElement?, List.findSome?_append, ← firstElement?, htop]
    rfl

end First

section Holder

variable {own ds : List Declaration} {written : List Written} {hints : List (String × String)}
  {q u : String}

/-- What an element declares itself is written on it. -/
theorem exists_written_of_ownDeclarations (h : ownDeclarations? own written = some ds)
    {d : Declaration} (hd : d ∈ ds) :
    d ∈ own ∨ ∃ w ∈ written, declaredQualifier? w = some d.qualifier ∧ w.value = d.uri := by
  induction written generalizing own with
  | nil =>
    rw [ownDeclarations?, Option.some.injEq] at h
    exact .inl (h ▸ hd)
  | cons w rest ih =>
    simp only [List.mem_cons, exists_eq_or_imp]
    unfold ownDeclarations? at h
    split at h
    · exact (ih h).imp_right .inr
    · rename_i qualifier hq
      split_ifs at h
      · exact (ih h).imp_right .inr
      · rcases ih h with hmem | hrest
        · rcases List.mem_append.mp hmem with hmem | hmem
          · exact .inl hmem
          · obtain rfl := List.mem_singleton.mp hmem
            exact .inr (.inl ⟨hq, rfl⟩)
        · exact .inr (.inr hrest)

def AreWritable (hints : List (String × String)) : Prop :=
  ∀ hint ∈ hints, IsName hint.1 ∧ IsSteady hint.2

namespace Document

def holderTag (hints : List (String × String)) : StartTag where
  name := ⟨none, holderName⟩
  attributes := (hints.filter fun hint => isHint hint.1).map fun hint =>
    Declaration.written ⟨some hint.1, hint.2⟩
  ending := .content

def behindHolder (fragment : String) : List Char :=
  withoutDeclaration fragment.toList ++ ("</" ++ holderName ++ ">").toList

theorem toList_wrapped (fragment : String) (hints : List (String × String)) :
    (wrapped fragment hints).toList = (holderTag hints).chars ++ behindHolder fragment := by
  simp [wrapped, behindHolder, holderTag, StartTag.chars, QName.chars, TagEnd.chars,
    String.toList_join, List.flatMap_map, Declaration.written, Written.chars, quotedText]

theorem isName_holderName : IsName holderName :=
  ⟨rfl, fun c hc => List.all_eq_true.mp (by decide) c hc⟩

theorem legible_holderTag (h : ∀ hint ∈ hints, IsName hint.1) :
    (holderTag hints).name.Legible ∧ ∀ w ∈ (holderTag hints).attributes, w.name.Legible := by
  refine ⟨⟨isName_holderName, by simp [holderTag]⟩, fun w hw => ?_⟩
  obtain ⟨hint, hhint, rfl⟩ := List.mem_map.mp hw
  refine ⟨h hint (List.mem_of_mem_filter hhint), fun q hq => ?_⟩
  obtain rfl := Option.some.inj hq
  exact .inr isName_xmlns

theorem plain_holderTag (h : AreWritable hints) : (holderTag hints).Plain where
  name := (legible_holderTag fun hint hhint => (h hint hhint).1).1
  attributes := by
    intro w hw
    refine ⟨(legible_holderTag fun hint hhint => (h hint hhint).1).2 w hw, ?_⟩
    obtain ⟨hint, hhint, rfl⟩ := List.mem_map.mp hw
    exact (h hint (List.mem_of_mem_filter hhint)).2
  ending := nofun

/-- The first element among the trees below the document node is the root element. -/
theorem exists_find_of_first {doc : Document} {parent : NodeId} {ids : List NodeId}
    {trees : List Subtree} {e : Element} (h : doc.HoldsBelow parent ids trees)
    (hfirst : firstElement? trees = some e) :
    ∃ top, ids.find? doc.isElement = some top ∧ doc.element? top = some e := by
  induction trees generalizing ids with
  | nil => cases hfirst
  | cons tree trees ih =>
    cases ids with
    | nil => simp [HoldsBelow] at h
    | cons id ids =>
      obtain ⟨payload, children⟩ := tree
      rw [HoldsBelow, Holds] at h
      obtain ⟨-, ⟨-, hpayload, -⟩, hrest⟩ := h
      have hid : doc.element? id = payload.element? := by rw [element?, hpayload]
      rw [firstElement?, List.findSome?_cons] at hfirst
      cases hfound : payload.element? with
      | some found =>
        obtain rfl : found = e := by simpa [hfound, Subtree.payload] using hfirst
        have helement : doc.isElement id = true := by
          rw [isElement, hpayload, Payload.isElement, hfound]
          rfl
        exact ⟨id, List.find?_cons_of_pos helement, hid.trans hfound⟩
      | none =>
        have helement : ¬ doc.isElement id = true := by
          rw [isElement, hpayload, Payload.isElement, hfound]
          simp
        have hmore : firstElement? trees = some e := by
          simpa [hfound, Subtree.payload, firstElement?] using hfirst
        rw [List.find?_cons_of_neg helement]
        exact ih hrest hmore

/-- The holder declares nothing but hints. -/
theorem mem_hints_of_holder {fragment : String} {holder : Document} (h : AreWritable hints)
    (hp : parse (wrapped fragment hints) = .ok holder) :
    ∃ top e, holder.rootElement? = some top ∧ holder.element? top = some e ∧
      ∀ q u, ⟨some q, u⟩ ∈ e.declarations → (q, u) ∈ hints := by
  unfold parse at hp
  cases hread : (Xml.read? (wrapped fragment hints).toList).bind assembled? with
  | none => simp [hread] at hp
  | some trees =>
    rw [hread] at hp
    obtain rfl := Except.ok.inj hp
    obtain ⟨events, hevents, htrees⟩ := Option.bind_eq_some_iff.mp hread
    have hproper : ∀ tree ∈ trees, tree.Proper := fun tree ht =>
      (scoped_of_assembled (legible_of_read? hevents) htrees tree ht).proper
    obtain ⟨more, rfl⟩ := read?_startTag (plain_holderTag h) rfl (toList_wrapped fragment hints ▸ hevents)
    obtain ⟨e, own, scope, written, hown, hresolved, hfirst⟩ := firstElement?_of_startTag rfl htrees
    obtain ⟨top, htop, he⟩ := exists_find_of_first (Forest.holdsBelow_ofSubtrees hproper) hfirst
    refine ⟨top, e, htop, he, fun q u hd => ?_⟩
    obtain ⟨rfl, hstored, -⟩ := resolvedElement?_eq_some hresolved
    rw [hstored, List.mem_filter, innerScope] at hd
    have hmem : ⟨some q, u⟩ ∈ own := by
      split at hd
      · exact absurd hd.1 List.not_mem_nil
      · exact (IsScope.mem_extendScope hd.1).resolve_right List.not_mem_nil
    obtain ⟨w, hw, hq, hu⟩ := (exists_written_of_ownDeclarations hown hmem).resolve_left
      List.not_mem_nil
    obtain ⟨⟨q', u'⟩, hhint, rfl⟩ := List.mem_map.mp hw
    obtain rfl := Option.some.inj (Option.some.inj hq)
    obtain rfl := hu
    exact List.mem_of_mem_filter hhint

/-- The fragment is read inside a holder as its only element. -/
structure IsFragment (fragment : String) (hints : List (String × String)) (holder : Document)
    (element : NodeId) : Prop where
  parse : Document.parse (wrapped fragment hints) = .ok holder
  only : ∃ top, holder.rootElement? = some top ∧
    (holder.children top).filter holder.isElement = [element]

namespace IsFragment

variable {fragment : String} {holder doc : Document} {element id : NodeId}

theorem isElement (h : IsFragment fragment hints holder element) : holder.isElement element := by
  obtain ⟨_, -, honly⟩ := h.only
  exact List.of_mem_filter (honly ▸ List.mem_singleton_self element)

/-- Where the element of a fragment relies on a prefix that is not declared on it or below it, that is
one of the hints. -/
theorem mem_hints (h : IsFragment fragment hints holder element) (hw : AreWritable hints)
    (hq : q ≠ "") (hd : ⟨some q, u⟩ ∈ holder.undeclared element) : (q, u) ∈ hints := by
  obtain ⟨top, e, htop, he, hhints⟩ := mem_hints_of_holder hw h.parse
  obtain ⟨top', htop', honly⟩ := h.only
  obtain rfl := Option.some.inj (htop.symm.trans htop')
  obtain ⟨kids, hk⟩ := Forest.exists_parse h.parse
  have hf := hk.self
  have hchild : element ∈ holder.children top :=
    List.mem_of_mem_filter (honly ▸ List.mem_singleton_self element)
  have hroot : top ∈ holder.children root := List.mem_of_find?_eq_some htop
  obtain ⟨⟨x, hx, below, hbelow, hneeded⟩, hnot⟩ :=
    mem_declaredAs_undeclared.mp (mem_declaredAs.mpr hd)
  have hparent := (hf.mem_kids element top).mp hchild
  have hwithin := hf.mem_subtree.mp hx
  obtain ⟨_, _, hin, hfound⟩ := exists_scope_of_parse h.parse hroot
    (hf.mem_subtree.mpr (hwithin.tail hparent)) hbelow
  have hdeclared := hfound q u (hin.mem_of_needed (fun _ => hq) hneeded)
  rw [hf.declaredWithin_child hparent hwithin, Option.or_eq_some_iff] at hdeclared
  rcases hdeclared with hinside | ⟨-, haround⟩
  · obtain ⟨y, hy, hmem⟩ := exists_declaration_of_declaredWithin hf hx hinside
    exact absurd hmem (hnot y hy)
  · obtain ⟨d, hdeclared, rfl⟩ := Option.map_eq_some_iff.mp haround
    have hqualifier : d.qualifier = some q := by simpa using List.find?_some hdeclared
    have hmem := List.mem_of_find?_eq_some hdeclared
    rw [declarations, he] at hmem
    exact hhints q d.uri (hqualifier ▸ hmem)

end IsFragment

/-- What is read from a fragment is a copy of its element, below a document node. -/
theorem exists_isFragment {fragment : String} {doc : Document}
    (h : parseFragment fragment hints = .ok doc) : ∃ holder element top,
      IsFragment fragment hints holder element ∧ doc.rootElement? = some top ∧
        doc.parent top = some root ∧ doc.Holds top (holder.portableSubtree element) := by
  unfold parseFragment at h
  cases hparse : parse (wrapped fragment hints) with
  | error e => simp [hparse, bind, Except.bind] at h
  | ok holder =>
  simp only [hparse, bind, Except.bind] at h
  split at h
  · cases h
  rename_i around haround
  split at h
  · rename_i element honly
    have hfragment : IsFragment fragment hints holder element := ⟨hparse, around, haround, honly⟩
    have hf : Forest holder holder.children := (Sound.parse hparse).forest
    obtain ⟨copied, hcopied, hforest, hfree, hholds⟩ :=
      Forest.empty.self.exists_importFrom_element hf hfragment.isElement
    have helement := hf.isElement_portable hfragment.isElement hholds
    obtain ⟨attached, happended, hattached, hparent, hstands⟩ :=
      hforest.exists_append_root hfree helement hholds
    obtain rfl : attached = doc := by
      simpa [hcopied, happended] using h
    have hbefore : copied.children root = [] :=
      (extended_importFrom Forest.empty.self hf hcopied).children_eq root Forest.empty.root_lt
    have hkids : attached.children root = [Document.empty.size] := by
      rw [(hforest.moved_append happended).children_eq, if_pos rfl, hbefore]
      rfl
    refine ⟨holder, element, Document.empty.size, hfragment, ?_, hparent, hstands⟩
    rw [rootElement?, hkids]
    exact List.find?_cons_of_pos (hf.isElement_portable hfragment.isElement hstands)
  · cases h

theorem exists_rootElement_of_parseFragment {fragment : String} {doc : Document}
    (h : parseFragment fragment hints = .ok doc) : ∃ top, doc.rootElement? = some top := by
  obtain ⟨_, _, top, -, htop, -⟩ := exists_isFragment h
  exact ⟨top, htop⟩

end Document

end Holder

namespace Forest

open Document

variable {doc source : Document} {id copy : NodeId}

/-- A copy of an element that stands alone or directly below the document node lacks nothing, so it is
copied as it is. -/
theorem portableSubtree_of_holds (h : Forest doc doc.children) (hs : Forest source source.children)
    (hid : source.isElement id) (hholds : doc.Holds copy (source.portableSubtree id))
    (hp : doc.parent copy = none ∨ doc.parent copy = some root) :
    doc.portableSubtree copy = source.portableSubtree id := by
  obtain ⟨e, htree⟩ := hs.exists_subtreeAt_element hid
  rw [portableSubtree, ← h.undeclared_subtreeAt, subtreeAt_of_holds hholds,
    h.inheritsDefault_eq_false hp, portableSubtree, ← hs.undeclared_subtreeAt, htree,
    Subtree.undeclared_declaring]
  simp [Document.Subtree.declaring]

/-- A copy is named like the element, and declares what that declares and lacks. -/
theorem declarations_of_holds (hs : Forest source source.children) (hid : source.isElement id)
    (hholds : doc.Holds copy (source.portableSubtree id)) :
    doc.declarations copy = source.declarations id ++ source.undeclared id ∧
      doc.localName? copy = source.localName? id := by
  obtain ⟨e, he⟩ := Option.isSome_iff_exists.mp hid
  have hpayload : source.payload id = .element e := element?_eq_some.mp he
  rw [portableSubtree, hs.subtreeAt_eq, hpayload, Document.Subtree.declaring, Holds] at hholds
  constructor
  · rw [declarations, element?_eq_some.mpr hholds.2.1, declarations, element?_eq_some.mpr hpayload]
    rfl
  · rw [localName?, hholds.2.1, localName?, hpayload]

end Forest

end Tree

end MarkupQuery
