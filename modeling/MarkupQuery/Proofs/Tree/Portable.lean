import MarkupQuery.Proofs.Tree.Declared
import MarkupQuery.Proofs.Tree.Reachable
import MarkupQuery.Proofs.Tree.Standing

namespace MarkupQuery.Tree

open MarkupQuery.Xml

def Element.declaresDefault (e : Element) : Bool := e.declarations.any fun d => d.qualifier.isNone

namespace Subtree

mutual

/-- The default namespace that the first unprefixed element of a tree without a default declared
around it in the tree asks for. -/
def wantedDefault : Subtree → Option String
  | .mk (.element e) children =>
    if e.declaresDefault then none
    else if e.qualifier.isNone then some (e.namespaceUri.getD "")
    else wantedDefaultOf children
  | .mk _ children => wantedDefaultOf children

def wantedDefaultOf : List Subtree → Option String
  | [] => none
  | tree :: rest => tree.wantedDefault.or (wantedDefaultOf rest)

end

/-- The default declaration that a tree lacks, if it does. `inherits` tells whether a default
namespace is in force around it. -/
def missingDefault (inherits : Bool) (tree : Subtree) : List Declaration :=
  match tree.wantedDefault with
  | none => []
  | some uri => if uri.isEmpty && !inherits then [] else [⟨none, uri⟩]

def undeclared (inherits : Bool) (tree : Subtree) : List Declaration :=
  tree.missingDefault inherits ++
    Document.addMissing (tree.elements.flatMap Element.declarations) []
      (tree.elements.flatMap Element.needed)

theorem wantedDefaultOf_eq_findSome? (trees : List Subtree) :
    wantedDefaultOf trees = trees.findSome? wantedDefault := by
  induction trees with
  | nil => rfl
  | cons tree rest ih =>
    rw [wantedDefaultOf, ih, List.findSome?_cons]
    cases tree.wantedDefault <;> rfl

theorem isSome_of_mem_addMissing {declared : List Declaration} {elements : List Element}
    {d : Declaration} (h : d ∈ Document.addMissing declared [] (elements.flatMap Element.needed)) :
    d.qualifier.isSome := by
  simp only [mem_addMissing, List.not_mem_nil, false_or, List.mem_flatMap] at h
  obtain ⟨⟨e, -, hneeded⟩, -⟩ := h
  obtain ⟨q, hq⟩ := exists_qualifier_of_mem_needed hneeded
  rw [hq, Option.isSome_some]

section Declaring

variable {e : Element} {children : List Subtree} {inherits : Bool}

/-- Of what a tree lacks only the first declaration can be a default one. -/
theorem declaresDefault_append (tree : Subtree) (inherits : Bool) (e : Element) :
    Element.declaresDefault { e with
        declarations := e.declarations ++ tree.undeclared inherits } =
      (e.declaresDefault || !(tree.missingDefault inherits).isEmpty) := by
  have hprefixed : (Document.addMissing (tree.elements.flatMap Element.declarations) []
      (tree.elements.flatMap Element.needed)).any (fun d => d.qualifier.isNone) = false := by
    refine List.any_eq_false.mpr fun d hd => ?_
    rw [Option.isNone_iff_eq_none, ← Option.not_isSome_iff_eq_none, not_not]
    exact isSome_of_mem_addMissing hd
  have hdefault : (tree.missingDefault inherits).any (fun d => d.qualifier.isNone) =
      !(tree.missingDefault inherits).isEmpty := by
    unfold missingDefault
    split
    · rfl
    · split <;> rfl
  simp only [Element.declaresDefault, undeclared, List.any_append, hprefixed, hdefault,
    Bool.or_false]

/-- A tree that declares the default namespace it lacked lacks none, wherever none is in force. -/
theorem missingDefault_declaring (e : Element) (children : List Subtree) (inherits : Bool) :
    missingDefault false (Document.Subtree.declaring
      (undeclared inherits (.mk (.element e) children)) (.mk (.element e) children)) = [] := by
  have hwanted : wantedDefault (Document.Subtree.declaring
      (undeclared inherits (.mk (.element e) children)) (.mk (.element e) children)) =
      if (missingDefault inherits (.mk (.element e) children)).isEmpty then
        wantedDefault (.mk (.element e) children)
      else none := by
    rw [Document.Subtree.declaring, wantedDefault, declaresDefault_append, wantedDefault]
    cases e.declaresDefault <;>
      cases (missingDefault inherits (.mk (.element e) children)).isEmpty <;> rfl
  rw [missingDefault, hwanted, missingDefault]
  cases wantedDefault (.mk (.element e) children) with
  | none => simp
  | some uri => cases hempty : uri.isEmpty <;> cases inherits <;> simp [hempty]

/-- A tree that declares all that it lacked lacks nothing, wherever no default namespace is in
force. -/
theorem undeclared_declaring (e : Element) (children : List Subtree) (inherits : Bool) :
    undeclared false (Document.Subtree.declaring
      (undeclared inherits (.mk (.element e) children)) (.mk (.element e) children)) = [] := by
  obtain ⟨lacked, hlacked⟩ : ∃ lacked, lacked = undeclared inherits (.mk (.element e) children) :=
    ⟨_, rfl⟩
  rw [undeclared, missingDefault_declaring, List.nil_append, ← hlacked]
  have hneeds : Element.needed { e with declarations := e.declarations ++ lacked } = e.needed := rfl
  refine List.eq_nil_iff_forall_not_mem.mpr fun d hd => ?_
  simp only [mem_addMissing, List.not_mem_nil, false_or, Document.Subtree.declaring, elements,
    Payload.element?, Option.toList_some, List.singleton_append, List.flatMap_cons, hneeds,
    List.mem_append, not_or] at hd
  obtain ⟨hneeded, ⟨hown, hnot⟩, hbelow⟩ := hd
  refine hnot (hlacked ▸ List.mem_append_right _ (mem_addMissing.mpr (.inr ⟨?_, ?_⟩)))
  all_goals simp only [elements, Payload.element?, Option.toList_some, List.singleton_append,
    List.flatMap_cons, List.mem_append, not_or]
  · exact hneeded
  · exact ⟨hown, hbelow⟩

/-- What is declared by a tree itself is written like what is added to it. -/
theorem events_declaring (e : Element) (children : List Subtree) (more : List Declaration)
    (void : Bool) (around : String) :
    (Document.Subtree.declaring more (.mk (.element e) children)).events void [] around =
      (Subtree.mk (.element e) children).events void more around := by
  have hdefault : Element.defaultNamespace { e with declarations := e.declarations ++ more } []
      around = e.defaultNamespace more around := by
    simp only [Element.defaultNamespace, List.append_nil]
  have hdeclared : Element.declared { e with declarations := e.declarations ++ more } [] around =
      e.declared more around := by
    simp only [Element.declared, hdefault, List.append_nil]
  simp only [Document.Subtree.declaring, events, Element.tag, Element.tagName, hdefault, hdeclared]

end Declaring

end Subtree

theorem findSome?_flatMap {α β γ : Type} (l : List α) (f : α → List β) (g : β → Option γ) :
    (l.flatMap f).findSome? g = l.findSome? fun x => (f x).findSome? g := by
  induction l with
  | nil => rfl
  | cons x l ih =>
    rw [List.flatMap_cons, List.findSome?_append, ih, List.findSome?_cons]
    cases (f x).findSome? g <;> rfl

namespace Document

/-- The default namespace that an unprefixed element asks for, if `top` and the elements between
declare none. -/
def asksFor (doc : Document) (top id : NodeId) : Option String :=
  match doc.element? id with
  | some e =>
    if e.qualifier.isNone && (doc.declaredWithin top id none).isNone then
      some (e.namespaceUri.getD "")
    else none
  | none => none

theorem wantedDefault_eq (doc : Document) (top : NodeId) :
    doc.wantedDefault top = (doc.subtree top).findSome? (doc.asksFor top) := by
  have hdefault : ∀ id, doc.defaultWithin top id = doc.declaredWithin top id none := fun id => by
    unfold defaultWithin declaredWithin upTo
    refine findSome?_congr fun above _ => ?_
    rw [declaredAt]
    congr 2
    funext d
    cases d.qualifier <;> rfl
  unfold wantedDefault
  refine findSome?_congr fun id _ => ?_
  cases he : doc.element? id <;> simp only [asksFor, he, hdefault]

end Document

namespace Forest

open Document

variable {doc : Document} {id child x : NodeId}

theorem declaredAt_isSome {e : Element} (he : doc.element? id = some e) :
    (doc.declaredAt none id).isSome = e.declaresDefault := by
  have hnone : (fun d : Declaration => d.qualifier == none) = fun d => d.qualifier.isNone := by
    funext d
    cases d.qualifier <;> rfl
  rw [declaredAt, declarations, he, Option.isSome_map, hnone, Element.declaresDefault,
    List.isSome_find?]
  rfl

theorem asksFor_child (h : Forest doc doc.children) (hc : child ∈ doc.children id)
    (hx : x ∈ doc.subtree child) :
    doc.asksFor id x = if (doc.declaredAt none id).isSome then none else doc.asksFor child x := by
  have hdeclared := h.declaredWithin_child ((h.mem_kids child id).mp hc) (h.mem_subtree.mp hx) none
  unfold asksFor
  rw [hdeclared]
  cases doc.element? x with
  | none => simp
  | some e => cases hat : doc.declaredAt none id <;> simp

/-- An element is asked first, and no one below it if it declares a default namespace. -/
theorem wantedDefault_step (h : Forest doc doc.children) (id : NodeId) :
    doc.wantedDefault id = (doc.asksFor id id).or
      (if (doc.declaredAt none id).isSome then none
        else (doc.children id).findSome? doc.wantedDefault) := by
  have hbelow : ∀ child ∈ doc.children id, (doc.subtree child).findSome? (doc.asksFor id) =
      if (doc.declaredAt none id).isSome then none else doc.wantedDefault child := by
    intro child hc
    rw [findSome?_congr fun x hx => h.asksFor_child hc hx]
    split
    · simp
    · exact (wantedDefault_eq doc child).symm
  rw [wantedDefault_eq, h.subtree_eq, List.findSome?_cons, findSome?_flatMap,
    findSome?_congr hbelow]
  cases doc.asksFor id id with
  | some uri => rfl
  | none => cases doc.declaredAt none id <;> simp

/-- The default namespace that a subtree asks for can be told from its tree. -/
theorem wantedDefault_subtreeAt (h : Forest doc doc.children) (id : NodeId) :
    (doc.subtreeAt id).wantedDefault = doc.wantedDefault id := by
  induction id using h.induction_below with
  | step id ih =>
    have hchildren : Subtree.wantedDefaultOf ((doc.children id).map doc.subtreeAt) =
        (doc.children id).findSome? doc.wantedDefault := by
      rw [Subtree.wantedDefaultOf_eq_findSome?, List.findSome?_map]
      exact findSome?_congr ih
    rw [h.subtreeAt_eq, h.wantedDefault_step]
    cases hp : doc.payload id with
    | element e =>
      have he : doc.element? id = some e := element?_eq_some.mpr hp
      have hat := declaredAt_isSome he
      have hasks : doc.asksFor id id =
          if e.qualifier.isNone && !e.declaresDefault then some (e.namespaceUri.getD "")
          else none := by
        rw [asksFor, he, h.declaredWithin_self, ← hat, Option.not_isSome]
      rw [Subtree.wantedDefault, hchildren, hasks, hat]
      cases e.declaresDefault <;> cases e.qualifier <;> rfl
    | document | text | comment | instruction =>
      have he : doc.element? id = none := by simp [Document.element?, hp, Payload.element?]
      rw [Subtree.wantedDefault, hchildren, asksFor, declaredAt, declarations, he]
      · rfl
      · simp

/-- So can all that it lacks. -/
theorem undeclared_subtreeAt (h : Forest doc doc.children) (id : NodeId) :
    (doc.subtreeAt id).undeclared (doc.inheritsDefault id) = doc.undeclared id := by
  have hflat : ∀ f : Element → List Declaration, ((doc.subtree id).filterMap doc.element?).flatMap f =
      (doc.subtree id).flatMap fun x => ((doc.element? x).map f).getD [] := by
    intro f
    generalize doc.subtree id = ids
    induction ids with
    | nil => rfl
    | cons x ids ih =>
      rw [List.filterMap_cons, List.flatMap_cons, ← ih]
      cases doc.element? x <;> rfl
  rw [Subtree.undeclared, Document.undeclared, Subtree.missingDefault, h.wantedDefault_subtreeAt,
    h.elements_subtreeAt, hflat, hflat]
  rfl

/-- The markup of an element is that of its tree with what the tree lacks. -/
theorem toList_markup (h : Forest doc doc.children) (hid : doc.isElement id) :
    (doc.markup false id).toList = ((doc.subtreeAt id).events false
      ((doc.subtreeAt id).undeclared (doc.inheritsDefault id)) "").flatMap Event.chars := by
  obtain ⟨e, he⟩ := Option.isSome_iff_exists.mp hid
  have hmarkup : doc.markup false id = doc.standaloneMarkup false id := by
    rw [markup, element?_eq_some.mp he, Bool.false_and]
  rw [hmarkup, h.toList_standaloneMarkup, if_pos hid, h.undeclared_subtreeAt]

theorem importTop_of_isElement (hid : doc.isElement id) : doc.importTop id = .ok id := by
  obtain ⟨e, he⟩ := Option.isSome_iff_exists.mp hid
  simp [importTop, contains, lt_size_of_isElement hid, element?_eq_some.mp he]

/-- Copying an element cannot fail. The copy is free, and its tree is that of the element with what
it lacked. -/
theorem exists_importFrom_element {source : Document} (h : Forest doc doc.children)
    (hs : Forest source source.children) (hid : source.isElement id) :
    ∃ new, doc.importFrom source id = .ok (new, doc.size) ∧ Forest new new.children ∧
      new.parent doc.size = none ∧ new.Holds doc.size (source.portableSubtree id) := by
  have htop := importTop_of_isElement hid
  obtain ⟨kids, hnew, hgrown, -, hholds, -⟩ := h.exists_graft (hs.proper_portableSubtree htop)
  refine ⟨_, importFrom_eq_ok.mpr ⟨id, htop, Prod.ext rfl (graft_snd doc _)⟩, hnew.self, ?_, hholds⟩
  rw [hgrown.parent_eq doc.size (by simp), parent_create, if_pos rfl]

/-- A free node can be put below the document node, with its tree as it is. -/
theorem exists_append_root {tree : Subtree} (h : Forest doc doc.children)
    (hfree : doc.parent id = none) (hid : doc.isElement id) (hholds : doc.Holds id tree) :
    ∃ new, doc.append root id = .ok new ∧ Forest new new.children ∧
      new.parent id = some root ∧ new.Holds id tree := by
  obtain ⟨e, he⟩ := Option.isSome_iff_exists.mp hid
  have hpayload : doc.payload id = .element e := element?_eq_some.mp he
  have hne : id ≠ root := by
    rintro rfl
    simp [h.root_payload] at hpayload
  have hlt := lt_size_of_isElement hid
  have hcheck : doc.checkInsertion root id = .ok () := by
    simp [checkInsertion, contains, h.root_lt, hlt, h.root_payload, hpayload,
      Payload.mayHaveChildren, h.ancestors_top h.parent_root, hne]
  obtain ⟨new, ho⟩ : ∃ new, doc.append root id = .ok new := ⟨_, by rw [Document.append, hcheck]; rfl⟩
  have hnew := h.append ho
  have hinserted := h.inserted_append ho
  refine ⟨new, ho, hnew.self, by rw [hinserted.parent_eq, if_pos rfl], ?_⟩
  have hsize : new.size = doc.size := by
    rw [hinserted.size_eq, size_detach]
  refine holds_of_eq hholds (Nat.le_of_eq hsize.symm) fun x hx _ => ⟨h.payload_append ho x, ?_⟩
  have hroot : x ≠ root := Nat.ne_of_gt (Nat.lt_of_lt_of_le (Nat.pos_of_ne_zero hne) hx)
  have hnot : id ∉ doc.children x := by simp [h.mem_kids, hfree]
  rw [hnew.children_eq, Function.update_of_ne hroot, without, List.erase_of_not_mem hnot]

/-- Around a node without parent no default namespace is in force, nor directly below the document
node. -/
theorem inheritsDefault_eq_false (h : Forest doc doc.children)
    (hp : doc.parent id = none ∨ doc.parent id = some root) : doc.inheritsDefault id = false := by
  rcases hp with hp | hp
  · rw [inheritsDefault, hp]
  · have hscope : doc.inScope root = [] := by
      rw [inScope, h.ancestors_top h.parent_root, List.foldl_cons, List.foldl_nil, declarations,
        Document.element?, h.root_payload]
      rfl
    rw [inheritsDefault, hp]
    simp [hscope]

/-- The tree of an element has the element at its top. -/
theorem exists_subtreeAt_element (h : Forest doc doc.children) (hid : doc.isElement id) :
    ∃ e, doc.subtreeAt id = .mk (.element e) ((doc.children id).map doc.subtreeAt) := by
  obtain ⟨e, he⟩ := Option.isSome_iff_exists.mp hid
  exact ⟨e, by rw [h.subtreeAt_eq, element?_eq_some.mp he]⟩

theorem isElement_portable {source : Document} {copy : NodeId}
    (hs : Forest source source.children) (hid : source.isElement id)
    (hholds : doc.Holds copy (source.portableSubtree id)) : doc.isElement copy := by
  obtain ⟨e, htree⟩ := hs.exists_subtreeAt_element hid
  rw [portableSubtree, htree, Document.Subtree.declaring, Holds] at hholds
  rw [isElement, hholds.2.1]
  rfl

/-- Where a copy of an element stands, alone or directly below the document node, it is written like
the element. -/
theorem markup_portable {source : Document} {copy : NodeId} (h : Forest doc doc.children)
    (hs : Forest source source.children) (hid : source.isElement id)
    (hholds : doc.Holds copy (source.portableSubtree id))
    (hp : doc.parent copy = none ∨ doc.parent copy = some root) :
    doc.markup false copy = source.markup false id := by
  obtain ⟨e, htree⟩ := hs.exists_subtreeAt_element hid
  refine String.ext ?_
  rw [h.toList_markup (hs.isElement_portable hid hholds), hs.toList_markup hid, subtreeAt_of_holds hholds,
    h.inheritsDefault_eq_false hp, portableSubtree, ← hs.undeclared_subtreeAt, htree,
    Subtree.undeclared_declaring, Subtree.events_declaring]

end Forest

namespace Document.Reachable

variable {doc source : Document} {id : NodeId}

/-- An element and its copy in another document are written alike, where the copy stands alone and
where it is put below the document node. -/
theorem markup_importFrom (h : doc.Reachable) (hs : source.Reachable)
    (hid : source.isElement id) : ∃ new copy attached,
      doc.importFrom source id = .ok (new, copy) ∧
      new.markup false copy = source.markup false id ∧
      new.append root copy = .ok attached ∧
      attached.markup false copy = source.markup false id := by
  obtain ⟨new, hcopied, hnew, hfree, hholds⟩ :=
    h.forest.exists_importFrom_element hs.forest hid
  obtain ⟨attached, happended, hattached, hparent, hstands⟩ :=
    hnew.exists_append_root hfree (hs.forest.isElement_portable hid hholds) hholds
  exact ⟨new, doc.size, attached, hcopied,
    hnew.markup_portable hs.forest hid hholds (.inl hfree), happended,
    hattached.markup_portable hs.forest hid hstands (.inr hparent)⟩

end Document.Reachable

def inheritingMarkup : String := "<r xmlns='u' xmlns:p='v'><p:a p:k='1'><b/></p:a><c/></r>"

def inheriting : Document := (Change.append 2 4).apply (.ofMarkup inheritingMarkup)

/-- Both declarations are written in place, and stored with a copy in an empty document. -/
theorem markup_importFrom_inheriting : inheriting.Reachable ∧ inheriting.isElement 2 ∧
    inheriting.declarations 2 = [] ∧
    inheriting.markup false 2 =
      "<p:a xmlns=\"u\" xmlns:p=\"v\" p:k=\"1\"><b></b><c></c></p:a>" ∧
    ∃ new copy attached, Document.empty.importFrom inheriting 2 = .ok (new, copy) ∧
      new.markup false copy = inheriting.markup false 2 ∧
      new.append Document.root copy = .ok attached ∧
      attached.markup false copy = inheriting.markup false 2 := by
  have hvalues : (Document.parse inheritingMarkup).isOk = true ∧ inheriting.isElement 2 = true ∧
      inheriting.declarations 2 = [] ∧ inheriting.markup false 2 =
        "<p:a xmlns=\"u\" xmlns:p=\"v\" p:k=\"1\"><b></b><c></c></p:a>" := by decide +kernel
  obtain ⟨hparse, helement, hdeclarations, hmarkup⟩ := hvalues
  have hreachable : inheriting.Reachable :=
    .change_alone _ (.parse (Document.parse_ofMarkup hparse)) (by simp)
  exact ⟨hreachable, helement, hdeclarations, hmarkup,
    Document.Reachable.markup_importFrom .empty hreachable helement⟩

end MarkupQuery.Tree
