import MarkupQuery.Proofs.Tree.Grafting
import MarkupQuery.Proofs.Tree.Outline
import MarkupQuery.Proofs.Xml.Rereading

namespace MarkupQuery.Tree

open MarkupQuery.Xml

def Declaration.written (d : Declaration) : Written where
  name := match d.qualifier with
    | some q => ⟨some "xmlns", q⟩
    | none => ⟨none, "xmlns"⟩
  value := d.uri

def Attribute.written (a : Attribute) : Written := ⟨⟨a.qualifier, a.name⟩, a.value⟩

def Element.tagName (e : Element) : QName := ⟨e.qualifier, e.name⟩

/-- The start tag of an element to which the declarations `more` are added, where `around` is the
default namespace around it. -/
def Element.tag (e : Element) (more : List Declaration) (around : String) (closed : Bool) :
    StartTag where
  name := e.tagName
  attributes :=
    (e.declared more around).map Declaration.written ++ e.attributes.map Attribute.written
  ending := if closed then .empty else .content

mutual

/-- The events that the markup of a tree consists of. -/
def Subtree.events (void : Bool) (more : List Declaration) (around : String) :
    Subtree → List Event
  | .mk (.element e) children =>
    let closed := children.isEmpty && void && isVoidElement e.name
    .startTag (e.tag more around closed) ::
      if closed then []
      else allEvents void (e.defaultNamespace more around) children ++ [.endTag e.tagName]
  | .mk (.text content) _ => [.text content]
  | .mk (.comment content) _ => [.comment content]
  | .mk (.instruction target data) _ => [.instruction target data]
  | .mk .document children => allEvents void around children

def Subtree.allEvents (void : Bool) (around : String) : List Subtree → List Event
  | [] => []
  | tree :: rest => tree.events void [] around ++ allEvents void around rest

end

theorem Element.toList_qualifiedName (e : Element) : e.qualifiedName.toList = e.tagName.chars := by
  unfold Element.qualifiedName qualify QName.chars Element.tagName
  cases e.qualifier <;> simp

theorem Declaration.toList_markup (d : Declaration) : d.markup.toList = d.written.chars := by
  unfold Declaration.markup Declaration.written Written.chars QName.chars quotedText
  cases d.qualifier <;> simp

theorem Attribute.toList_markup (a : Attribute) : a.markup.toList = a.written.chars := by
  unfold Attribute.markup Attribute.written Written.chars QName.chars Attribute.qualifiedName qualify
    quotedText
  cases a.qualifier <;> simp

theorem Element.ending_tag (e : Element) (more : List Declaration) (around : String)
    (closed : Bool) : (e.tag more around closed).ending = if closed then .empty else .content := rfl

theorem toList_startMarkup (e : Element) (more : List Declaration) (around : String)
    (closed : Bool) : (e.tag more around closed).chars =
      '<' :: (e.startMarkup more around).toList ++ (e.tag more around closed).ending.chars := by
  rw [Document.startMarkup_eq]
  simp [StartTag.chars, Element.tag, Element.toList_qualifiedName, String.toList_join,
    List.flatMap_map, Declaration.toList_markup, Attribute.toList_markup]

mutual

def Subtree.elements : Subtree → List Element
  | .mk payload children => payload.element?.toList ++ allElements children

def Subtree.allElements : List Subtree → List Element
  | [] => []
  | tree :: rest => tree.elements ++ allElements rest

end

theorem Subtree.allElements_eq_flatMap (trees : List Subtree) :
    allElements trees = trees.flatMap elements := by
  induction trees with
  | nil => rfl
  | cons tree rest ih => rw [allElements, ih, List.flatMap_cons]

namespace Document

variable {doc : Document}

mutual

theorem subtreeUpTo_of_holds : ∀ {tree : Subtree} {id : NodeId} {depth : Nat},
    doc.Holds id tree → doc.size ≤ depth + id → doc.subtreeUpTo depth id = tree
  | .mk payload children, id, depth, h, hdepth => by
    rw [Holds] at h
    obtain ⟨hid, hp, hbelow⟩ := h
    have hpos : depth ≠ 0 := by
      rintro rfl
      exact absurd hid (Nat.not_lt.mpr (Nat.zero_add id ▸ hdepth))
    obtain ⟨depth, rfl⟩ := Nat.exists_eq_succ_of_ne_zero hpos
    rw [subtreeUpTo, hp, map_subtreeUpTo_of_holdsBelow hbelow (by omega)]

theorem map_subtreeUpTo_of_holdsBelow : ∀ {trees : List Subtree} {ids : List NodeId}
    {parent : NodeId} {depth : Nat}, doc.HoldsBelow parent ids trees →
    doc.size ≤ depth + parent + 1 → ids.map (doc.subtreeUpTo depth) = trees
  | [], [], _, _, _, _ => rfl
  | [], _ :: _, _, _, h, _ => by simp [HoldsBelow] at h
  | _ :: _, [], _, _, h, _ => by simp [HoldsBelow] at h
  | tree :: rest, id :: ids, parent, depth, h, hdepth => by
    rw [HoldsBelow] at h
    obtain ⟨hlt, htree, hrest⟩ := h
    have hlater : doc.size ≤ depth + id :=
      Nat.le_trans hdepth (Nat.add_le_add_left (Nat.succ_le_of_lt hlt) depth)
    rw [List.map_cons, subtreeUpTo_of_holds htree hlater,
      map_subtreeUpTo_of_holdsBelow hrest hdepth]

end

/-- The tree that stands at a node is the one that is found there. -/
theorem subtreeAt_of_holds {tree : Subtree} {id : NodeId} (h : doc.Holds id tree) :
    doc.subtreeAt id = tree := subtreeUpTo_of_holds h (Nat.le_add_right doc.size id)

theorem map_subtreeAt_of_holdsBelow {parent : NodeId} {ids : List NodeId} {trees : List Subtree}
    (h : doc.HoldsBelow parent ids trees) : ids.map doc.subtreeAt = trees :=
  map_subtreeUpTo_of_holdsBelow h (Nat.le_add_right_of_le (Nat.le_add_right doc.size parent))

theorem payload_subtreeAt (doc : Document) (id : NodeId) :
    (doc.subtreeAt id).payload = doc.payload id := by
  rw [subtreeAt]
  cases doc.size <;> rfl

end Document

namespace Forest

open Document

variable {doc : Document} {kids : NodeId → List NodeId} {id child : NodeId} {depth : Nat}

theorem length_ancestors_of_mem_kids (h : Forest doc kids) (hc : child ∈ kids id) :
    (doc.ancestors child).length = (doc.ancestors id).length + 1 := by
  rw [h.ancestors_eq ((h.mem_kids child id).mp hc), List.length_cons]

/-- A node with as many ancestors as there are nodes has none below it. -/
theorem kids_of_size_le_length (h : Forest doc kids)
    (hd : doc.size ≤ (doc.ancestors id).length) : kids id = [] := by
  refine List.eq_nil_iff_forall_not_mem.mpr fun child hc => ?_
  have hlength := h.length_ancestors_of_mem_kids hc
  have hle := length_ancestors_le doc child
  omega

/-- Levels below the last node of a branch do not count. -/
theorem subtreeUpTo_eq (h : Forest doc kids) {depth' : Nat}
    (hd : doc.size ≤ depth + (doc.ancestors id).length)
    (hd' : doc.size ≤ depth' + (doc.ancestors id).length) :
    doc.subtreeUpTo depth id = doc.subtreeUpTo depth' id := by
  induction depth generalizing depth' id with
  | zero =>
    have hleaf := (h.children_eq id).trans (h.kids_of_size_le_length (by simpa using hd))
    cases depth' <;> simp [subtreeUpTo, hleaf]
  | succ depth ih =>
    cases depth' with
    | zero =>
      have hleaf := (h.children_eq id).trans (h.kids_of_size_le_length (by simpa using hd'))
      simp [subtreeUpTo, hleaf]
    | succ depth' =>
      rw [subtreeUpTo, subtreeUpTo, h.children_eq]
      refine congrArg _ (List.map_congr_left fun child hc => ?_)
      have hlength := h.length_ancestors_of_mem_kids hc
      exact ih (by omega) (by omega)

/-- The tree at a node has the trees at its children below it. -/
theorem subtreeAt_eq (h : Forest doc kids) (id : NodeId) :
    doc.subtreeAt id = .mk (doc.payload id) ((kids id).map doc.subtreeAt) := by
  have hdeeper : doc.subtreeAt id = doc.subtreeUpTo (doc.size + 1) id :=
    h.subtreeUpTo_eq (by omega) (by omega)
  rw [hdeeper, subtreeUpTo, h.children_eq]
  rfl

theorem elements_subtreeAt (h : Forest doc kids) (id : NodeId) :
    (doc.subtreeAt id).elements = (doc.subtree id).filterMap doc.element? := by
  induction id using h.induction_below with
  | step id ih =>
    rw [h.subtreeAt_eq, Subtree.elements, Subtree.allElements_eq_flatMap, h.subtree_eq,
      List.filterMap_cons, List.flatMap_map, List.filterMap_flatMap, List.flatMap_congr ih,
      Document.element?]
    cases (doc.payload id).element? <;> rfl

/-- The markup of a node is what the events of the tree there are written as. -/
theorem toList_markupUpTo (h : Forest doc kids) (void : Bool) (more : List Declaration)
    (around : String) (id : NodeId) (hd : doc.size < depth + (doc.ancestors id).length) :
    (doc.markupUpTo void depth more around id).toList =
      ((doc.subtreeAt id).events void more around).flatMap Event.chars := by
  induction depth generalizing more around id with
  | zero =>
    have hle := length_ancestors_le doc id
    omega
  | succ depth ih =>
    -- `depth` counts down while the way to the root gets longer
    have hinner : ∀ around, (String.join ((kids id).map
        (doc.markupUpTo void depth [] around))).toList =
          (Subtree.allEvents void around ((kids id).map doc.subtreeAt)).flatMap Event.chars := by
      intro around
      have hchild : ∀ child ∈ kids id, doc.size < depth + (doc.ancestors child).length :=
        fun child hc => by
          have hlength := h.length_ancestors_of_mem_kids hc
          omega
      generalize kids id = ids at hchild
      induction ids with
      | nil => simp [Subtree.allEvents]
      | cons child ids ihids =>
        obtain ⟨hfirst, hrest⟩ := List.forall_mem_cons.mp hchild
        rw [List.map_cons, List.map_cons, String.join_cons, String.toList_append,
          Subtree.allEvents, List.flatMap_append, ih [] around child hfirst, ihids hrest]
    rw [h.subtreeAt_eq, markupUpTo, h.children_eq]
    cases hp : doc.payload id with
    | document => simpa [Subtree.events] using hinner around
    | text content => simp [Subtree.events, contentText]
    | comment content => simp [Subtree.events]
    | instruction target data => cases data <;> simp [Subtree.events]
    | element e =>
      have hempty : (doc.firstChild id).isNone = ((kids id).map doc.subtreeAt).isEmpty := by
        rw [h.firstChild_eq]
        cases kids id <;> rfl
      specialize hinner (e.defaultNamespace more around)
      dsimp only
      rw [hempty, Subtree.events]
      generalize (((kids id).map doc.subtreeAt).isEmpty && void && isVoidElement e.name) = closed
      cases closed
      · simp [toList_startMarkup, Element.ending_tag, TagEnd.chars,
          Element.toList_qualifiedName, hinner]
      · simp [toList_startMarkup, Element.ending_tag, TagEnd.chars]

theorem toList_standaloneMarkup (h : Forest doc kids) (void : Bool) (id : NodeId) :
    (doc.standaloneMarkup void id).toList = ((doc.subtreeAt id).events void
      (if doc.isElement id then doc.undeclared id else []) "").flatMap Event.chars :=
  h.toList_markupUpTo void _ "" id (by omega)

end Forest

end MarkupQuery.Tree
