import MarkupQuery.Proofs.Tree.Grafting
import MarkupQuery.Proofs.Tree.Growth
import MarkupQuery.Proofs.Tree.Scopes
import MarkupQuery.Tree.Graft
import MarkupQuery.Tree.Parse

namespace MarkupQuery.Tree

open MarkupQuery.Xml

inductive Subtree.Every (P : Element → Prop) : Subtree → Prop
  | mk {payload : Payload} {children : List Subtree} (hp : ∀ e, payload = .element e → P e)
    (ht : ∀ tree ∈ children, tree.Every P) : (Subtree.mk payload children).Every P

namespace Document

def Every (P : Element → Prop) (doc : Document) : Prop :=
  ∀ id e, doc.payload id = .element e → P e

theorem payload_update {f : Node → Node} (hf : ∀ n, (f n).payload = n.payload) (doc : Document)
    (id x : NodeId) : (doc.update id f).payload x = doc.payload x := by
  simp only [payload, node, update, Array.getD_eq_getD_getElem?, Array.getElem?_modify]
  split
  · rename_i hid
    subst hid
    cases doc.nodes[id]? <;> simp [hf]
  · rfl

theorem payload_linkLast (doc : Document) (parent child id : NodeId) :
    (doc.linkLast parent child).payload id = doc.payload id := by
  unfold linkLast
  dsimp only
  split
  all_goals rw [payload_update, payload_update, payload_update] <;> exact fun _ => rfl

namespace Every

variable {P Q : Element → Prop} {doc new : Document}

theorem mono (h : doc.Every P) (hq : ∀ e, P e → Q e) : doc.Every Q :=
  fun id e he => hq e (h id e he)

/-- It can be looked up node by node. -/
theorem of_nodes (h : ∀ n ∈ doc.nodes.toList, ∀ e ∈ n.payload.element?, P e) : doc.Every P := by
  intro id e he
  by_cases hid : id < doc.nodes.size
  · have hnode : doc.node id = doc.nodes[id] := by
      simp [Document.node, Array.getD_eq_getD_getElem?, hid]
    refine h _ (Array.getElem_mem_toList hid) e ?_
    rw [← hnode]
    exact congrArg Payload.element? he
  · rw [payload, node_of_size_le (Nat.le_of_not_lt hid)] at he
    cases he

theorem of_payload_eq (h : doc.Every P) (hp : ∀ id, new.payload id = doc.payload id) :
    new.Every P :=
  fun id e he => h id e (hp id ▸ he)

theorem updateElement {f : Element → Element} (h : doc.Every P) (hf : ∀ e, P e → P (f e))
    (id : NodeId) : (doc.updateElement id f).Every P := by
  intro x e he
  rw [payload, node_updateElement] at he
  dsimp only at he
  split at he
  · cases hp : doc.payload x with
    | element old =>
      rw [hp, Payload.mapElement, Payload.element.injEq] at he
      exact he ▸ hf old (h x old hp)
    | _ => simp [hp, Payload.mapElement] at he
  · exact h x e he

theorem create {payload : Payload} (h : doc.Every P) (hp : ∀ e, payload = .element e → P e) :
    (doc.create payload).1.Every P := by
  intro id e he
  rw [payload_create] at he
  split at he
  · exact hp e he
  · exact h id e he

mutual

theorem graft : ∀ {tree : Subtree} {doc : Document}, doc.Every P → tree.Every P →
    (doc.graft tree).1.Every P
  | .mk _ children, _, h, .mk hp ht => graftBelow children (h.create hp) ht

theorem graftBelow : ∀ (trees : List Subtree) {doc : Document} {parent : NodeId}, doc.Every P →
    (∀ tree ∈ trees, tree.Every P) → (doc.graftBelow parent trees).Every P
  | [], _, _, h, _ => h
  | tree :: rest, doc, parent, h, ht => by
    have htree := graft h (ht tree (by simp))
    have hlinked := htree.of_payload_eq (payload_linkLast _ parent (doc.graft tree).2)
    exact graftBelow rest hlinked fun t htr => ht t (by simp [htr])

end

/-- It holds of the trees that a document is made of. -/
theorem subtreeUpTo (h : doc.Every P) (depth : Nat) :
    ∀ id, (doc.subtreeUpTo depth id).Every P := by
  induction depth with
  | zero => exact fun id => .mk (h id) (by simp)
  | succ depth ih =>
    intro id
    refine .mk (h id) fun tree ht => ?_
    obtain ⟨child, -, rfl⟩ := List.mem_map.mp ht
    exact ih child

theorem empty : Document.empty.Every P := by
  intro id e he
  cases id <;> simp [Document.empty, Document.payload, Document.node] at he

theorem ofSubtrees {trees : List Subtree} (ht : ∀ tree ∈ trees, tree.Every P) :
    (Document.ofSubtrees trees).Every P :=
  graftBelow trees empty ht

end Every

end Document

/-!
### Elements in their scopes
-/

theorem Subtree.ScopedIn.proper {tree : Subtree} {outer : List Declaration}
    (h : tree.ScopedIn outer) : tree.Proper := by
  induction h with
  | element _ _ ih => exact .element ih
  | leaf hp =>
    refine .leaf ?_
    rintro rfl
    exact hp

/-- What holds of every element in its scope holds of every element of a tree. -/
theorem Subtree.ScopedIn.every {tree : Subtree} {outer : List Declaration} {P : Element → Prop}
    (h : tree.ScopedIn outer)
    (hp : ∀ {outer inner : List Declaration} {e : Element}, e.ScopedIn outer inner → P e) :
    tree.Every P := by
  induction h with
  | element he _ ih => exact .mk (fun _ h => Payload.element.inj h ▸ hp he) ih
  | leaf hleaf =>
    refine .mk (fun e h => ?_) (by simp)
    subst h
    exact hleaf.elim

def scopeOf (opened : List OpenElement) : List Declaration :=
  (opened.head?.map OpenElement.scope).getD []

/-- Every open element stands in the scope of the next one, and what is below it in its own. -/
def OpenScoped : List OpenElement → Prop
  | [] => True
  | o :: outer => o.element.ScopedIn (scopeOf outer) o.scope ∧
    (∀ tree ∈ o.below, tree.ScopedIn o.scope) ∧ OpenScoped outer

theorem OpenScoped.isScope {opened : List OpenElement} (h : OpenScoped opened) :
    IsScope (scopeOf opened) := by
  cases opened with
  | nil => exact .nil
  | cons o outer => exact h.1.scope

namespace Assembly

@[simp] theorem declarations_put (a : Assembly) (tree : Subtree) :
    (a.put tree).declarations = a.declarations := by
  unfold Assembly.put
  split <;> rfl

/-- All trees and elements so far stand in their scopes, and what waits for the next tag or for the
end of a text is legible. -/
structure Scoped (a : Assembly) : Prop where
  top : ∀ tree ∈ a.top, tree.ScopedIn []
  opened : OpenScoped a.opened
  declarations : IsScope a.declarations
  attributes : ∀ w ∈ a.attributes, w.name.Legible ∧ declaredQualifier? w = none
  pieces : ∀ piece ∈ a.pieces, ∀ c ∈ piece.toList, isChar c = true

variable {a new : Assembly}

theorem Scoped.put {tree : Subtree} (h : a.Scoped) (ht : tree.ScopedIn a.scope) :
    (a.put tree).Scoped := by
  unfold Assembly.put
  cases ho : a.opened with
  | nil =>
    have htop : tree.ScopedIn [] := by simpa [Assembly.scope, ho] using ht
    exact ⟨List.forall_mem_cons.mpr ⟨htop, h.top⟩, by simp [OpenScoped], h.declarations,
      h.attributes, h.pieces⟩
  | cons o outer =>
    obtain ⟨helement, hbelow, houter⟩ := ho ▸ h.opened
    have htree : tree.ScopedIn o.scope := by simpa [Assembly.scope, ho] using ht
    exact ⟨h.top, ⟨helement, List.forall_mem_cons.mpr ⟨htree, hbelow⟩, houter⟩, h.declarations,
      h.attributes, h.pieces⟩

theorem Scoped.endText (h : a.Scoped) : a.endText.Scoped := by
  unfold Assembly.endText
  split
  · exact h
  · have hread : Scoped { a with pieces := [] } :=
      ⟨h.top, h.opened, h.declarations, h.attributes, by simp⟩
    refine hread.put (.leaf fun c hc => ?_)
    rw [String.toList_join, List.mem_flatMap] at hc
    obtain ⟨piece, hpiece, hc⟩ := hc
    exact h.pieces piece (List.mem_reverse.mp hpiece) c hc

theorem Scoped.settled (h : a.Scoped) : a.settled.Scoped :=
  ⟨h.top, h.opened, .nil, by simp [Assembly.settled], h.pieces⟩

/-- What a start tag does. Its declarations and attributes come behind those that wait for it. -/
theorem startTag?_eq_some {tag : StartTag} (h : a.startTag? tag = some new) :
    tag.name.qualifier ≠ "xmlns" ∧
    ∃ own written, ownDeclarations? a.declarations tag.attributes = some own ∧
      written = a.attributes ++ tag.attributes.filter (fun w => (declaredQualifier? w).isNone) ∧
      ((tag.ending = .missing ∧ new = { a with declarations := own, attributes := written }) ∨
        ∃ element scope, resolvedElement? a.scope own tag.name written = some (element, scope) ∧
          ((tag.ending = .empty ∧ new = a.settled.put (.mk (.element element) [])) ∨
            (tag.ending = .content ∧ new = { a.settled with
              opened := { name := tag.name, element, scope } :: a.opened }))) := by
  unfold startTag? at h
  split at h
  · cases h
  · rename_i hne
    simp only [Option.bind_eq_bind, Option.bind_eq_some_iff, Option.pure_def] at h
    obtain ⟨own, hown, h⟩ := h
    refine ⟨by simpa using hne, own, _, hown, rfl, ?_⟩
    cases hending : tag.ending with
    | missing =>
      simp only [hending, Option.some.injEq] at h
      exact .inl ⟨rfl, h.symm⟩
    | empty =>
      simp only [hending, Option.bind_eq_some_iff, Option.some.injEq] at h
      obtain ⟨⟨element, scope⟩, hread, rfl⟩ := h
      exact .inr ⟨element, scope, hread, .inl ⟨rfl, rfl⟩⟩
    | content =>
      simp only [hending, Option.bind_eq_some_iff, Option.some.injEq] at h
      obtain ⟨⟨element, scope⟩, hread, rfl⟩ := h
      exact .inr ⟨element, scope, hread, .inr ⟨rfl, rfl⟩⟩

/-- What an end tag does. -/
theorem endTag?_eq_some {name : QName} (h : a.endTag? name = some new) : ∃ o outer,
    a.opened = o :: outer ∧
      new = { a.settled with opened := outer }.put (.mk (.element o.element) o.below.reverse) := by
  simp only [endTag?, Option.bind_eq_bind, Option.bind_eq_some_iff, Option.pure_def] at h
  obtain ⟨attributes, -, h⟩ := h
  cases hopened : a.opened with
  | nil => simp [hopened] at h
  | cons o outer =>
    simp only [hopened] at h
    split at h
    · exact ⟨o, outer, rfl, (Option.some.inj h).symm⟩
    · cases h

theorem Scoped.written {tag : StartTag} (h : a.Scoped) (ht : (Event.startTag tag).Legible) :
    ∀ w ∈ a.attributes ++ tag.attributes.filter (fun w => (declaredQualifier? w).isNone),
      w.name.Legible ∧ declaredQualifier? w = none := by
  refine List.forall_mem_append.mpr ⟨h.attributes, fun w hw => ?_⟩
  rw [List.mem_filter, Option.isNone_iff_eq_none] at hw
  exact ⟨ht.2 w hw.1, hw.2⟩

/-- The element of a start tag stands in the scope of those that are open. -/
theorem Scoped.resolved {tag : StartTag} {own scope : List Declaration} {e : Element} (h : a.Scoped)
    (ht : (Event.startTag tag).Legible) (hne : tag.name.qualifier ≠ "xmlns")
    (hown : ownDeclarations? a.declarations tag.attributes = some own)
    (hread : resolvedElement? a.scope own tag.name (a.attributes ++
      tag.attributes.filter fun w => (declaredQualifier? w).isNone) = some (e, scope)) :
    e.ScopedIn a.scope scope :=
  scoped_of_resolvedElement? (h.declarations.ownDeclarations ht.2 hown) h.opened.isScope ht.1 hne
    (h.written ht) hread

theorem Scoped.startTag {tag : StartTag} (h : a.Scoped) (ht : (Event.startTag tag).Legible)
    (ho : a.startTag? tag = some new) : new.Scoped := by
  obtain ⟨hne, own, written, hown, rfl, hnew⟩ := startTag?_eq_some ho
  rcases hnew with ⟨-, rfl⟩ | ⟨element, scope, hread, ⟨-, rfl⟩ | ⟨-, rfl⟩⟩
  · exact ⟨h.top, h.opened, h.declarations.ownDeclarations ht.2 hown, h.written ht, h.pieces⟩
  · exact h.settled.put (.element (h.resolved ht hne hown hread) (by simp))
  · exact ⟨h.top, ⟨h.resolved ht hne hown hread, by simp, h.opened⟩, .nil, h.settled.attributes,
      h.pieces⟩

theorem Scoped.endTag {name : QName} (h : a.Scoped) (ho : a.endTag? name = some new) :
    new.Scoped := by
  obtain ⟨o, outer, hopened, rfl⟩ := endTag?_eq_some ho
  obtain ⟨helement, hbelow, houter⟩ := hopened ▸ h.opened
  have hrest : Scoped { a.settled with opened := outer } :=
    ⟨h.top, houter, .nil, h.settled.attributes, h.pieces⟩
  exact hrest.put (.element helement fun tree ht => hbelow tree (List.mem_reverse.mp ht))

theorem Scoped.step {event : Event} (h : a.Scoped) (he : event.Legible)
    (ho : a.step? event = some new) : new.Scoped := by
  cases event with
  | startTag tag => exact h.endText.startTag he ho
  | endTag name => exact h.endText.endTag ho
  | text content =>
    rw [step?, Option.some.injEq] at ho
    exact ho ▸ ⟨h.top, h.opened, h.declarations, h.attributes,
      List.forall_mem_cons.mpr ⟨he, h.pieces⟩⟩
  | comment content =>
    rw [step?, Option.some.injEq] at ho
    exact ho ▸ h.endText.put (.leaf he)
  | instruction target data =>
    rw [step?, Option.some.injEq] at ho
    exact ho ▸ h.endText.put (.leaf he)

theorem Scoped.run {events : List Event} (h : a.Scoped) (he : ∀ event ∈ events, event.Legible)
    (ho : events.foldlM step? a = some new) : new.Scoped := by
  induction events generalizing a with
  | nil =>
    rw [List.foldlM_nil, Option.pure_def, Option.some.injEq] at ho
    exact ho ▸ h
  | cons event events ih =>
    obtain ⟨hevent, hrest⟩ := List.forall_mem_cons.mp he
    rw [List.foldlM_cons, Option.bind_eq_bind, Option.bind_eq_some_iff] at ho
    obtain ⟨next, hstep, ho⟩ := ho
    exact ih (h.step hevent hstep) hrest ho

/-- The trees are complete once every element is closed and one of them is an element. -/
theorem finish?_eq_some {trees : List Subtree} : a.finish? = some trees ↔
    (a.opened = [] ∧ trees.any fun tree => tree.payload.isElement) ∧
      a.top.reverse ++ a.lastText = trees := by
  unfold finish?
  dsimp only
  rw [Option.ite_none_right_eq_some, Bool.and_eq_true, List.isEmpty_iff, Option.some.injEq]
  constructor
  · rintro ⟨hclosed, rfl⟩
    exact ⟨hclosed, rfl⟩
  · rintro ⟨hclosed, rfl⟩
    exact ⟨hclosed, rfl⟩

theorem Scoped.finish {trees : List Subtree} (h : a.Scoped) (ho : a.finish? = some trees) :
    ∀ tree ∈ trees, tree.ScopedIn [] := by
  obtain ⟨-, rfl⟩ := finish?_eq_some.mp ho
  intro tree htree
  rcases List.mem_append.mp htree with htop | hlast
  · exact h.top tree (List.mem_reverse.mp htop)
  · unfold lastText at hlast
    rw [Option.mem_toList, Option.map_eq_some_iff] at hlast
    obtain ⟨first, hfirst, rfl⟩ := hlast
    exact .leaf (h.pieces first (List.mem_of_getLast? hfirst))

end Assembly

theorem scoped_of_assembled {events : List Event} {trees : List Subtree}
    (he : ∀ event ∈ events, event.Legible) (h : assembled? events = some trees) :
    ∀ tree ∈ trees, tree.ScopedIn [] := by
  simp only [assembled?, Option.bind_eq_bind, Option.bind_eq_some_iff] at h
  obtain ⟨a, hrun, hfinish⟩ := h
  have hstart : Assembly.Scoped {} := ⟨by simp, trivial, .nil, by simp, by simp⟩
  exact (hstart.run he hrun).finish hfinish

/-- What is read from markup is built from trees of elements in their scopes. -/
theorem Document.parse_eq_ok {markup : String} {doc : Document}
    (h : Document.parse markup = .ok doc) :
    ∃ trees, (∀ tree ∈ trees, tree.ScopedIn []) ∧ Document.ofSubtrees trees = doc := by
  unfold Document.parse at h
  cases hread : (Xml.read? markup.toList).bind assembled? with
  | none => simp [hread] at h
  | some trees =>
    rw [hread] at h
    obtain ⟨events, hevents, hassembled⟩ := Option.bind_eq_some_iff.mp hread
    exact ⟨trees, scoped_of_assembled (legible_of_read? hevents) hassembled, Except.ok.inj h⟩

theorem Forest.exists_parse {markup : String} {doc : Document}
    (h : Document.parse markup = .ok doc) : ∃ kids, Forest doc kids := by
  obtain ⟨trees, hscoped, rfl⟩ := Document.parse_eq_ok h
  exact Forest.exists_ofSubtrees fun tree ht => (hscoped tree ht).proper

/-- What holds of every element in its scope holds of every element that is read. -/
theorem Document.Every.of_parse {markup : String} {doc : Document} {P : Element → Prop}
    (h : Document.parse markup = .ok doc)
    (hp : ∀ {outer inner : List Declaration} {e : Element}, e.ScopedIn outer inner → P e) :
    doc.Every P := by
  obtain ⟨trees, hscoped, rfl⟩ := Document.parse_eq_ok h
  exact .ofSubtrees fun tree ht => (hscoped tree ht).every hp

theorem Document.Every.parse {markup : String} {doc : Document}
    (h : Document.parse markup = .ok doc) : doc.Every Element.Resolved :=
  .of_parse h Element.ScopedIn.resolved

def Document.ofMarkup (markup : String) : Document :=
  match Document.parse markup with
  | .ok doc => doc
  | .error _ => .empty

theorem Document.parse_ofMarkup {markup : String} (h : (Document.parse markup).isOk = true) :
    Document.parse markup = .ok (.ofMarkup markup) := by
  unfold ofMarkup
  split
  · assumption
  · rename_i hp
    simp [hp, Except.isOk, Except.toBool] at h

end MarkupQuery.Tree
