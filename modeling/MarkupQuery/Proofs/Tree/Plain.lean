import Mathlib.Data.List.Chain
import Mathlib.Tactic.MkIffOfInductiveProp
import MarkupQuery.Proofs.Tree.Assembled
import MarkupQuery.Proofs.Tree.Standing

namespace MarkupQuery.Tree

open MarkupQuery.Xml

def Payload.isText : Payload → Bool
  | .text _ => true
  | _ => false

/-- An element that keeps to the rules which the reader does not check: it takes a name with nothing
in front of its colon and a declaration of the prefix xmlns, and it does not look at the characters
that attribute values have from entities. -/
@[mk_iff] structure Element.Conventional (e : Element) : Prop where
  qualifier : e.qualifier ≠ some ""
  declarations : ∀ d ∈ e.declarations, d.qualifier ≠ some "xmlns" ∧
    ∀ c ∈ d.uri.toList, isChar c = true
  values : ∀ a ∈ e.attributes, ∀ c ∈ a.value.toList, isChar c = true

/-- An element without a tab or a line end in a declared namespace or in the value of an
attribute. -/
@[mk_iff] structure Element.Steady (e : Element) : Prop where
  declarations : ∀ d ∈ e.declarations, ∀ c ∈ d.uri.toList, spaceFor c = c
  values : ∀ a ∈ e.attributes, ∀ c ∈ a.value.toList, spaceFor c = c

-- through `all`, since there is an instance for properties of all characters that tries every one
instance (e : Element) : Decidable e.Conventional :=
  decidable_of_iff (e.qualifier ≠ some "" ∧
      (e.declarations.all fun d => d.qualifier ≠ some "xmlns" && d.uri.toList.all isChar) ∧
      e.attributes.all fun a => a.value.toList.all isChar)
    (by simp [Element.conventional_iff])

instance (e : Element) : Decidable e.Steady :=
  decidable_of_iff ((e.declarations.all fun d => d.uri.toList.all fun c => spaceFor c == c) ∧
      e.attributes.all fun a => a.value.toList.all fun c => spaceFor c == c)
    (by simp [Element.steady_iff])

namespace Payload

def Conventional : Payload → Prop
  | element e => e.Conventional
  | instruction target _ => target ≠ "xml"
  | _ => True

/-- A node by itself that a reader does not normalize: a steady element, or a text that is not empty
and has no carriage return. -/
def Steady : Payload → Prop
  | element e => e.Steady
  | text content => content ≠ "" ∧ '\r' ∉ content.toList
  | _ => True

def Plain (p : Payload) : Prop := p.Conventional ∧ p.Steady

instance : DecidablePred Conventional
  | element e => inferInstanceAs (Decidable e.Conventional)
  | instruction target _ => inferInstanceAs (Decidable (target ≠ "xml"))
  | document | text _ | comment _ => inferInstanceAs (Decidable True)

instance : DecidablePred Steady
  | element e => inferInstanceAs (Decidable e.Steady)
  | text content => inferInstanceAs (Decidable (content ≠ "" ∧ '\r' ∉ content.toList))
  | document | comment _ | instruction _ _ => inferInstanceAs (Decidable True)

end Payload

namespace Document

/-- A document as the rules of XML have it: one element at the top, texts only inside of it and none
right behind another. The tags in the texts of entities need not match for the reader, so with
entities there can be more elements and texts. -/
@[mk_iff] structure Conventional (doc : Document) : Prop where
  top : ∃ top, (doc.children root).filter doc.isElement = [top]
  outside : ∀ id ∈ doc.children root, (doc.payload id).isText = false
  apart : ∀ id, (doc.children id).IsChain fun a b =>
    ¬ ((doc.payload a).isText = true ∧ (doc.payload b).isText = true)
  nodes : ∀ id, (doc.payload id).Conventional

def Steady (doc : Document) : Prop := ∀ id, (doc.payload id).Steady

/-- What holds of a document node holds of all payloads if it holds of those of the nodes. -/
theorem forall_payload_iff {doc : Document} {P : Payload → Prop} (hd : P .document) :
    (∀ id, P (doc.payload id)) ↔ ∀ n ∈ doc.nodes.toList, P n.payload := by
  refine ⟨fun h n hn => ?_, fun h id => ?_⟩
  · obtain ⟨id, hid, rfl⟩ := List.getElem_of_mem hn
    have hnode : doc.node id = doc.nodes.toList[id] := by
      rw [Document.node, Array.getD_eq_getD_getElem?, Array.getElem_toList,
        Array.getElem?_eq_getElem (by simpa using hid)]
      rfl
    exact hnode ▸ h id
  · by_cases hid : id < doc.nodes.size
    · have hnode : doc.node id = doc.nodes[id] := by
        simp [Document.node, Array.getD_eq_getD_getElem?, hid]
      rw [payload, hnode]
      exact h _ (Array.getElem_mem_toList hid)
    · rw [payload, node_of_size_le (Nat.le_of_not_lt hid)]
      exact hd

theorem children_of_size_le {doc : Document} {id : NodeId} (h : doc.size ≤ id) :
    doc.children id = [] := by
  rw [children, firstChild, node_of_size_le h]
  cases doc.size <;> rfl

instance (doc : Document) : Decidable doc.Conventional :=
  decidable_of_iff (((doc.children root).filter doc.isElement).length = 1 ∧
      (∀ id ∈ doc.children root, (doc.payload id).isText = false) ∧
      (∀ id < doc.size, (doc.children id).IsChain fun a b =>
        ¬ ((doc.payload a).isText = true ∧ (doc.payload b).isText = true)) ∧
      ∀ n ∈ doc.nodes.toList, n.payload.Conventional) (by
    rw [conventional_iff, List.length_eq_one_iff, forall_payload_iff trivial]
    refine and_congr_right fun _ => and_congr_right fun _ => and_congr_left fun _ => ?_
    refine ⟨fun h id => ?_, fun h id _ => h id⟩
    rcases Nat.lt_or_ge id doc.size with hid | hid
    · exact h id hid
    · simp [children_of_size_le hid])

instance (doc : Document) : Decidable doc.Steady :=
  decidable_of_iff _ (forall_payload_iff (P := Payload.Steady) trivial).symm

end Document

def Payload.Apart (p q : Payload) : Prop := ¬ (p.isText = true ∧ q.isText = true)

inductive Subtree.Plain : Subtree → Prop
  | mk {payload : Payload} {children : List Subtree} (hp : payload.Plain)
      (hc : (children.map Subtree.payload).IsChain Payload.Apart)
      (ht : ∀ tree ∈ children, tree.Plain) : (Subtree.mk payload children).Plain

structure Declaration.Plain (d : Declaration) : Prop where
  qualifier : d.qualifier ≠ some "xmlns"
  uri : IsSteady d.uri

structure IsDefault (uri : String) : Prop where
  allowed : mayDeclare none uri = true
  steady : IsSteady uri

/-- Declarations of the default namespace alone, as the writer adds them. -/
def Added (more : List Declaration) : Prop := ∀ d ∈ more, d.qualifier = none ∧ IsDefault d.uri

section Holding

variable {doc : Document}

theorem Document.Conventional.plain (h : doc.Conventional) (h' : doc.Steady) (id : NodeId) :
    (doc.payload id).Plain := ⟨h.nodes id, h' id⟩

/-- What is at any node of a conventional and steady document is a plain tree. -/
theorem Document.Conventional.plain_subtreeAt (h : doc.Conventional) (h' : doc.Steady)
    (hf : Forest doc doc.children) (id : NodeId) : (doc.subtreeAt id).Plain := by
  induction id using hf.induction_below with
  | step id ih =>
    rw [hf.subtreeAt_eq]
    refine .mk (h.plain h' id) ?_ (List.forall_mem_map.mpr ih)
    have hpayloads : ((doc.children id).map doc.subtreeAt).map Subtree.payload =
        (doc.children id).map doc.payload := by
      rw [List.map_map]
      exact List.map_congr_left fun child _ => payload_subtreeAt doc child
    rw [hpayloads, List.isChain_map]
    exact h.apart id

end Holding

theorem isDefault_empty : IsDefault "" := ⟨by decide, by simp [IsSteady]⟩

theorem Declaration.Legible.isDefault {d : Declaration} (h : d.Legible) (hp : d.Plain) :
    IsDefault d.uri :=
  ⟨by simp [mayDeclare, h.uri_ne.1, h.uri_ne.2], hp.uri⟩

theorem Declaration.Legible.plain_written {d : Declaration} (h : d.Legible) (hp : d.Plain) :
    d.written.Plain := by
  obtain ⟨qualifier, uri⟩ := d
  cases qualifier with
  | none => exact ⟨⟨isName_xmlns, by simp [written]⟩, hp.uri⟩
  | some q =>
    refine ⟨⟨(h.qualifier q rfl).1, fun written hw => ?_⟩, hp.uri⟩
    exact .inr (Option.some.inj hw ▸ isName_xmlns)

theorem Attribute.ScopedIn.plain_written {a : Attribute} {scope : List Declaration}
    (h : a.ScopedIn scope) (hs : IsScope scope) (hv : IsSteady a.value) : a.written.Plain := by
  refine ⟨⟨h.name, fun q hq => .inr ?_⟩, hv⟩
  rcases h.bound with ⟨hnone, -⟩ | ⟨hxml, -⟩ | ⟨q', u, hq', -, hmem⟩
  · exact absurd (hnone.symm.trans hq) (by simp)
  · exact Option.some.inj (hxml.symm.trans hq) ▸ isName_xml
  · exact Option.some.inj (hq'.symm.trans hq) ▸ ((hs.legible _ hmem).qualifier q' rfl).1

namespace Element.ScopedIn

variable {e : Element} {outer inner more : List Declaration} {around : String}

theorem legible_tagName (h : e.ScopedIn outer inner) : e.tagName.Legible where
  localName := h.name
  qualifier q hq := by
    obtain ⟨_, -, hprefix⟩ := h.qualifier q hq
    exact hprefix.imp_right And.left

/-- What is in force inside of an element is plain if what is around it is. -/
theorem plain (h : e.ScopedIn outer inner) (hc : e.Conventional) (hs : e.Steady)
    (ho : ∀ d ∈ outer, d.Plain) : ∀ d ∈ inner, d.Plain := by
  intro d hd
  by_cases hmem : d ∈ outer
  · exact ho d hmem
  · have hown : d ∈ e.declarations := by
      rw [h.declarations, List.mem_filter]
      exact ⟨hd, by simpa using hmem⟩
    obtain ⟨hne, hchars⟩ := hc.declarations d hown
    exact ⟨hne, fun c hchar => ⟨hchars c hchar, hs.declarations d hown c hchar⟩⟩

section Plain

variable (h : e.ScopedIn outer inner) (hi : ∀ d ∈ inner, d.Plain)
include h hi

theorem isDefault_namespace : IsDefault (e.namespaceUri.getD "") := by
  cases hu : e.namespaceUri with
  | none => exact isDefault_empty
  | some u =>
    obtain ⟨-, d, hd, rfl⟩ := h.namespaceUri u hu
    exact (h.scope.legible d hd).isDefault (hi d hd)

theorem mem_declarations {d : Declaration} (hd : d ∈ e.declarations) : d.Legible ∧ d.Plain := by
  rw [h.declarations, List.mem_filter] at hd
  exact ⟨h.scope.legible d hd.1, hi d hd.1⟩

/-- The default namespace that is in force inside of a written element can be declared. -/
theorem isDefault_inside (ha : IsDefault around) (hm : Added more) :
    IsDefault (e.defaultNamespace more around) := by
  unfold Element.defaultNamespace
  split
  · exact h.isDefault_namespace hi
  · cases hf : (e.declarations ++ more).find? fun d => d.qualifier.isNone with
    | none => exact ha
    | some d =>
      rcases List.mem_append.mp (List.mem_of_find?_eq_some hf) with hd | hd
      · obtain ⟨hlegible, hplain⟩ := h.mem_declarations hi hd
        exact hlegible.isDefault hplain
      · exact (hm d hd).2

/-- What is declared in a start tag is read as it is written. -/
theorem mem_declared (ha : IsDefault around) (hm : Added more) {d : Declaration}
    (hd : d ∈ e.declared more around) : d.Legible ∧ d.Plain := by
  have hdefault := h.isDefault_inside hi ha hm
  unfold Element.declared at hd
  dsimp only at hd
  rcases List.mem_append.mp hd with hd | hd
  · split at hd
    · simp at hd
    · obtain rfl := List.mem_singleton.mp hd
      exact ⟨⟨hdefault.allowed, by simp⟩, ⟨by simp, hdefault.steady⟩⟩
  · obtain ⟨hd, hq⟩ := List.mem_filter.mp hd
    rcases List.mem_append.mp hd with hd | hd
    · exact h.mem_declarations hi hd
    · simp [(hm d hd).1] at hq

/-- The start tag of an element is read as it is written. -/
theorem plain_tag (hv : ∀ a ∈ e.attributes, IsSteady a.value) (ha : IsDefault around)
    (hm : Added more) (closed : Bool) : (e.tag more around closed).Plain where
  name := h.legible_tagName
  attributes := by
    refine List.forall_mem_append.mpr ⟨List.forall_mem_map.mpr fun d hd => ?_,
      List.forall_mem_map.mpr fun a hmem => ?_⟩
    · obtain ⟨hlegible, hplain⟩ := h.mem_declared hi ha hm hd
      exact hlegible.plain_written hplain
    · exact (h.attributes a hmem).plain_written h.scope (hv a hmem)
  ending := by cases closed <;> simp [Element.tag]

end Plain

/-- No prefix is declared twice in a start tag. -/
theorem declaredOnce_declared (h : e.ScopedIn outer inner) (hm : Added more) (around : String) :
    DeclaredOnce (e.declared more around) := by
  have hmore : more.filter (fun d => d.qualifier.isSome) = [] :=
    List.filter_eq_nil_iff.mpr fun d hd => by simp [(hm d hd).1]
  unfold Element.declared
  rw [List.filter_append, hmore, List.append_nil]
  refine List.pairwise_append.mpr ⟨?_, h.resolved.declarations.filter _, fun d hd d' _ hs => ?_⟩
  · split <;> simp
  · split at hd
    · simp at hd
    · obtain rfl := List.mem_singleton.mp hd
      simp at hs

end Element.ScopedIn

theorem Element.steady_values {e : Element} (hc : e.Conventional) (hs : e.Steady) :
    ∀ a ∈ e.attributes, IsSteady a.value :=
  fun a ha c hchar => ⟨hc.values a ha c hchar, hs.values a ha c hchar⟩

section Events

variable {void : Bool} {around : String} {more outer : List Declaration} {rest : List Event}
  {tree : Subtree} {trees : List Subtree} {event : Event} {level : Nat}

theorem Subtree.allEvents_eq_flatMap (void : Bool) (around : String) (trees : List Subtree) :
    allEvents void around trees = trees.flatMap (·.events void [] around) := by
  induction trees with
  | nil => rfl
  | cons tree rest ih => rw [allEvents, ih, List.flatMap_cons]

theorem added_nil : Added [] := by simp [Added]

/-- Every event that a plain tree consists of is read as it is written. -/
theorem Subtree.ScopedIn.plain_events (h : tree.ScopedIn outer) (hp : tree.Plain)
    (ho : ∀ d ∈ outer, d.Plain) (void : Bool) (ha : IsDefault around) (hm : Added more) :
    ∀ event ∈ tree.events void more around, event.Plain := by
  induction h generalizing more around with
  | @element outer inner e children he _ ih =>
    obtain ⟨⟨hc, hs⟩, -, hchildren⟩ := hp
    have hinner := he.plain hc hs ho
    have hdefault := he.isDefault_inside hinner ha hm
    rw [Subtree.events]
    refine List.forall_mem_cons.mpr ⟨he.plain_tag hinner (e.steady_values hc hs) ha hm _, ?_⟩
    split
    · simp
    · rw [allEvents_eq_flatMap]
      refine List.forall_mem_append.mpr ⟨fun event hevent => ?_,
        List.forall_mem_singleton.mpr he.legible_tagName⟩
      obtain ⟨child, hchild, hevent⟩ := List.mem_flatMap.mp hevent
      exact ih child hchild (hchildren child hchild) hinner hdefault added_nil event hevent
  | @leaf outer payload hl =>
    obtain ⟨⟨hc, hs⟩, -, -⟩ := hp
    cases payload with
    | document | element => exact hl.elim
    | text content => exact List.forall_mem_singleton.mpr ⟨by simpa using hs.1, hl, hs.2⟩
    | comment content => exact List.forall_mem_singleton.mpr hl
    | instruction target data => exact List.forall_mem_singleton.mpr ⟨hl, hc⟩

theorem Subtree.closes_allEvents (h : ∀ tree ∈ trees, ∀ {level : Nat} {rest : List Event},
      Closes level rest → Closes level (tree.events void [] around ++ rest))
    (hr : Closes level rest) : Closes level (allEvents void around trees ++ rest) := by
  induction trees with
  | nil => exact hr
  | cons tree trees ih =>
    obtain ⟨htree, hrest⟩ := List.forall_mem_cons.mp h
    rw [allEvents, List.append_assoc]
    exact htree (ih hrest)

/-- A tree closes all that it opens. -/
theorem Subtree.ScopedIn.closes_events (h : tree.ScopedIn outer) (hr : Closes level rest) :
    Closes level (tree.events void more around ++ rest) := by
  induction h generalizing more around level rest with
  | @element outer inner e children _ _ ih =>
    rw [Subtree.events]
    generalize (children.isEmpty && void && isVoidElement e.name) = closed
    cases closed with
    | true => simpa [Closes, Element.tag] using hr
    | false =>
      have hinside : Closes (level + 1) (allEvents void (e.defaultNamespace more around) children ++
          .endTag e.tagName :: rest) := closes_allEvents (fun child hchild => ih child hchild) hr
      simpa [Closes, Element.tag] using hinside
  | @leaf outer payload hl =>
    cases payload with
    | document | element => exact hl.elim
    | text | comment | instruction => cases level <;> exact hr

theorem separated_cons (h : Separated rest)
    (he : event.isText = true → ∀ next ∈ rest.head?, next.isText = false) :
    Separated (event :: rest) :=
  List.isChain_cons.mpr ⟨fun next hn hboth => by simp [he hboth.1 next hn] at hboth, h⟩

/-- Where a tree is no text its events do not begin with one. -/
theorem Subtree.ScopedIn.head_events (h : tree.ScopedIn outer) (ht : tree.payload.isText = false)
    (rest : List Event) :
    ∀ event ∈ (tree.events void more around ++ rest).head?, event.isText = false := by
  cases h with
  | element => simp [Subtree.events, Event.isText]
  | @leaf _ payload hl =>
    cases payload with
    | document | element => exact hl.elim
    | text => cases ht
    | comment | instruction => simp [Subtree.events, Event.isText]

/-- No text event of a plain tree stands right behind another. -/
theorem Subtree.ScopedIn.separated_events (h : tree.ScopedIn outer) (hp : tree.Plain)
    (hr : Separated rest)
    (hhead : tree.payload.isText = true → ∀ event ∈ rest.head?, event.isText = false) :
    Separated (tree.events void more around ++ rest) := by
  induction h generalizing more around rest with
  | @element outer inner e children _ hscoped ih =>
    obtain ⟨-, happart, hchildren⟩ := hp
    rw [Subtree.events, List.cons_append]
    refine separated_cons ?_ (by simp [Event.isText])
    generalize (children.isEmpty && void && isVoidElement e.name) = closed
    cases closed with
    | true => exact hr
    | false =>
      have hend : Separated (.endTag e.tagName :: rest) :=
        separated_cons hr (by simp [Event.isText])
      rw [if_neg Bool.false_ne_true, List.append_assoc, List.singleton_append, allEvents_eq_flatMap]
      generalize e.defaultNamespace more around = around
      clear hhead
      induction children with
      | nil => exact hend
      | cons child children ihc =>
        obtain ⟨hplain, hplains⟩ := List.forall_mem_cons.mp hchildren
        obtain ⟨-, hscopeds⟩ := List.forall_mem_cons.mp hscoped
        obtain ⟨hchild, hrest⟩ := List.forall_mem_cons.mp ih
        rw [List.map_cons, List.isChain_cons] at happart
        rw [List.flatMap_cons, List.append_assoc]
        refine hchild hplain (ihc hscopeds hrest happart.2 hplains) fun htext => ?_
        -- behind a text there is another kind of node, or the end tag
        cases children with
        | nil => simp [Event.isText]
        | cons next children =>
          have hnext : next.payload.isText = false := by
            simpa [Payload.Apart, htext] using happart.1 next.payload (by simp)
          rw [List.flatMap_cons, List.append_assoc]
          exact (hscopeds next (by simp)).head_events hnext _
  | @leaf outer payload hl =>
    cases payload with
    | document | element => exact hl.elim
    | text => exact separated_cons hr fun _ => hhead rfl
    | comment | instruction => exact separated_cons hr (by simp [Event.isText])

end Events

end MarkupQuery.Tree
