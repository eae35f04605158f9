import MarkupQuery.Proofs.Tree.Preorder
import MarkupQuery.Tree.Markup

namespace MarkupQuery.Tree

/-- An element that is written with the given declarations, or a piece of markup without tags. -/
inductive Outline where
  | element (stored : Element) (declared : List Declaration) (closed : Bool)
    (content : List Outline)
  | other (markup : String)

namespace Outline

mutual

def render : Outline → String
  | .other markup => markup
  | .element e declared closed content =>
    let start := "<" ++ e.qualifiedName ++ String.join (declared.map Declaration.markup) ++
      String.join (e.attributes.map Attribute.markup)
    if closed then start ++ "/>"
    else start ++ ">" ++ renderAll content ++ "</" ++ e.qualifiedName ++ ">"

def renderAll : List Outline → String
  | [] => ""
  | o :: rest => o.render ++ renderAll rest

end

mutual

/-- The elements of an outline in the order of their start tags, each with what the tags around it
declare, its own first. `around` is what is declared around the outline. -/
def tags (around : List (List Declaration)) : Outline → List (Element × List (List Declaration))
  | .other _ => []
  | .element e declared _ content => (e, declared :: around) :: allTags (declared :: around) content

def allTags (around : List (List Declaration)) :
    List Outline → List (Element × List (List Declaration))
  | [] => []
  | o :: rest => o.tags around ++ allTags around rest

end

theorem renderAll_append (l l' : List Outline) :
    renderAll (l ++ l') = renderAll l ++ renderAll l' := by
  induction l with
  | nil => simp [renderAll]
  | cons o rest ih => simp [renderAll, ih, String.append_assoc]

theorem allTags_append (around : List (List Declaration)) (l l' : List Outline) :
    allTags around (l ++ l') = allTags around l ++ allTags around l' := by
  induction l with
  | nil => simp [allTags]
  | cons o rest ih => simp [allTags, ih]

theorem renderAll_flatMap {α : Type} (l : List α) (f : α → List Outline) :
    renderAll (l.flatMap f) = String.join (l.map fun x => renderAll (f x)) := by
  induction l with
  | nil => simp [renderAll, String.join]
  | cons x rest ih => simp [renderAll_append, ih]

theorem allTags_flatMap {α : Type} (around : List (List Declaration)) (l : List α)
    (f : α → List Outline) :
    allTags around (l.flatMap f) = l.flatMap fun x => allTags around (f x) := by
  induction l with
  | nil => simp [allTags]
  | cons x rest ih => simp [allTags_append, ih]

end Outline

def Element.declared (e : Element) (more : List Declaration) (around : String) :
    List Declaration :=
  let default := e.defaultNamespace more around
  (if default = around then [] else [⟨none, default⟩]) ++
    (e.declarations ++ more).filter fun d => d.qualifier.isSome

namespace Document

def outlineUpTo (doc : Document) (void : Bool) :
    Nat → List Declaration → String → NodeId → List Outline
  | 0, _, _, _ => []
  | depth + 1, more, around, id =>
    match doc.payload id with
    | .document => (doc.children id).flatMap (doc.outlineUpTo void depth [] around)
    | .element e =>
      [.element e (e.declared more around)
        ((doc.firstChild id).isNone && void && isVoidElement e.name)
        ((doc.children id).flatMap
          (doc.outlineUpTo void depth [] (e.defaultNamespace more around)))]
    | _ => [.other (doc.markupUpTo void (depth + 1) more around id)]

def outline (doc : Document) (void : Bool) (id : NodeId) : List Outline :=
  doc.outlineUpTo (void && doc.isHtml) (doc.size + 1)
    (if doc.isElement id then doc.undeclared id else []) "" id

theorem startMarkup_eq (e : Element) (more : List Declaration) (around : String) :
    e.startMarkup more around = e.qualifiedName ++
      String.join ((e.declared more around).map Declaration.markup) ++
      String.join (e.attributes.map Attribute.markup) := by
  unfold Element.startMarkup Element.declared
  dsimp only
  split <;> simp [String.append_assoc]

theorem render_outlineUpTo (doc : Document) (void : Bool) (depth : Nat)
    (more : List Declaration) (around : String) (id : NodeId) :
    Outline.renderAll (doc.outlineUpTo void depth more around id) =
      doc.markupUpTo void depth more around id := by
  induction depth generalizing more around id with
  | zero => rfl
  | succ depth ih =>
    unfold outlineUpTo markupUpTo
    cases hp : doc.payload id with
    | document => simp [Outline.renderAll_flatMap, ih]
    | element e =>
      simp only [Outline.renderAll, Outline.render, Outline.renderAll_flatMap, ih, startMarkup_eq]
      split <;> simp [String.append_assoc]
    | text | comment | instruction => simp [Outline.renderAll, Outline.render]

theorem render_outline {doc : Document} {void : Bool} {id : NodeId} (hid : doc.isElement id) :
    Outline.renderAll (doc.outline void id) = doc.markup void id := by
  rw [outline, render_outlineUpTo]
  unfold markup standaloneMarkup
  cases hp : doc.payload id <;> simp_all [isElement, Payload.isElement, Payload.element?]

end Document

/-!
Which declarations stand around a name in the markup of a node: those of the elements from the one
that has the name up to the node, which may have further declarations added.
-/

abbrev prefixed (ds : List Declaration) : List Declaration := ds.filter fun d => d.qualifier.isSome

theorem prefixed_declared (e : Element) (more : List Declaration) (around : String) :
    prefixed (e.declared more around) = prefixed (e.declarations ++ more) := by
  unfold prefixed Element.declared
  dsimp only
  rw [List.filter_append, List.filter_filter]
  split <;> simp

namespace Document

def upTo (doc : Document) (top id : NodeId) : List NodeId :=
  (doc.ancestors id).takeWhile (· != top) ++ [top]

/-- The prefixes that the tag of a node declares in the markup of `top`, with `more` declarations
added there. -/
def tagDeclarations (doc : Document) (top : NodeId) (more : List Declaration) (id : NodeId) :
    List Declaration :=
  prefixed (doc.declarations id ++ if id = top then more else [])

end Document

namespace Forest

open Document

variable {doc : Document} {kids : NodeId → List NodeId} {top id child parent x y : NodeId}

theorem upTo_self (h : Forest doc kids) (top : NodeId) : doc.upTo top top = [top] := by
  obtain ⟨rest, ha⟩ := h.exists_ancestors top
  simp [Document.upTo, ha]

theorem upTo_of_ne (h : Forest doc kids) (hp : doc.parent id = some parent) (hne : id ≠ top) :
    doc.upTo top id = id :: doc.upTo top parent := by
  rw [Document.upTo, h.ancestors_eq hp, List.takeWhile_cons_of_pos (by simpa using hne)]
  rfl

theorem upTo_child (h : Forest doc kids) (hc : doc.parent child = some id)
    (hx : doc.Within x child) : doc.upTo id x = doc.upTo child x ++ [id] := by
  have hne : ∀ y, doc.Within y child → y ≠ id := by
    rintro y hy rfl
    exact h.acyclic y (.tail' hy hc)
  induction hx using Relation.ReflTransGen.head_induction_on with
  | refl => rw [h.upTo_of_ne hc (hne child .refl), h.upTo_self, h.upTo_self]; rfl
  | @head y z hy hz ih =>
    have hyc : y ≠ child := by
      rintro rfl
      exact h.acyclic y (.head' hy hz)
    rw [h.upTo_of_ne hy (hne y (.head hy hz)), h.upTo_of_ne hy hyc, ih]
    rfl

theorem within_of_mem_upTo (h : Forest doc kids) (hx : doc.Within x top)
    (hy : y ∈ doc.upTo top x) : doc.Within y top := by
  induction hx using Relation.ReflTransGen.head_induction_on with
  | refl =>
    rw [h.upTo_self, List.mem_singleton] at hy
    rw [hy]
  | @head a b ha hb ih =>
    by_cases hne : a = top
    · rw [hne, h.upTo_self, List.mem_singleton] at hy
      rw [hy]
    · rw [h.upTo_of_ne ha hne, List.mem_cons] at hy
      rcases hy with rfl | hy
      · exact .head ha hb
      · exact ih hy

theorem map_upTo_child (h : Forest doc kids) (hc : doc.parent child = some id)
    (hx : doc.Within x child) (more : List Declaration) :
    (doc.upTo id x).map (doc.tagDeclarations id more) =
      (doc.upTo child x).map (doc.tagDeclarations child []) ++ [doc.tagDeclarations id more id] := by
  rw [h.upTo_child hc hx, List.map_append, List.map_singleton]
  congr 1
  refine List.map_congr_left fun y hy => ?_
  have hne : y ≠ id := by
    rintro rfl
    exact h.acyclic y (.tail' (h.within_of_mem_upTo hx hy) hc)
  simp [tagDeclarations, hne]

/-- The tags in the markup of a node are those of the elements from it downwards, and the tags
around each of them are those of the elements above it. -/
theorem tags_outlineUpTo (h : Forest doc kids) (void : Bool) (depth : Nat)
    (more : List Declaration) (default : String) (around : List (List Declaration)) (id : NodeId)
    (hdepth : doc.size < depth + (doc.ancestors id).length) (hid : doc.payload id ≠ .document) :
    (Outline.allTags around (doc.outlineUpTo void depth more default id)).map
        (fun tag => (tag.1, tag.2.map prefixed)) =
      (doc.subtree id).filterMap fun x => (doc.element? x).map fun e =>
        (e, (doc.upTo id x).map (doc.tagDeclarations id more) ++ around.map prefixed) := by
  induction depth generalizing more default around id with
  | zero =>
    have := length_ancestors_le doc id
    omega
  | succ depth ih =>
    rw [h.subtree_eq, List.filterMap_cons]
    unfold outlineUpTo
    cases hp : doc.payload id with
    | document => exact absurd hp hid
    | element e =>
      have he : doc.element? id = some e := by simp [element?, hp, Payload.element?]
      have hown : doc.tagDeclarations id more id = prefixed (e.declarations ++ more) := by
        simp [tagDeclarations, declarations, he]
      simp only [Outline.allTags, Outline.tags, List.append_nil, List.map_cons, he, Option.map_some,
        h.upTo_self, prefixed_declared, ← hown]
      refine congrArg₂ _ rfl ?_
      rw [h.children_eq, Outline.allTags_flatMap, List.map_flatMap, List.filterMap_flatMap]
      refine List.flatMap_congr fun child hchild => ?_
      have hc := (h.mem_kids child id).mp hchild
      have hlength := congrArg List.length (h.ancestors_eq hc)
      rw [List.length_cons] at hlength
      rw [ih [] _ _ child (by omega) fun hd => by simp [h.document child hd] at hc]
      refine List.filterMap_congr fun x hx => ?_
      -- seen from below, the tag of `id` is the innermost of those around the child
      rw [h.map_upTo_child hc (h.mem_subtree.mp hx)]
      simp [prefixed_declared, hown]
    | text | comment | instruction =>
      rw [h.leaf id (by simp [hp, Payload.mayHaveChildren])]
      simp [Outline.allTags, Outline.tags, element?, hp, Payload.element?]

end Forest

end MarkupQuery.Tree
