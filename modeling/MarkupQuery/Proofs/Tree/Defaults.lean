import MarkupQuery.Proofs.Tree.Outline
import MarkupQuery.Proofs.Tree.Reachable

namespace MarkupQuery.Tree

def Declaration.spelled (d : Declaration) : String × String :=
  (match d.qualifier with
    | some q => "xmlns:" ++ q
    | none => "xmlns", d.uri)

def Attribute.spelled (a : Attribute) : String × String := (a.qualifiedName, a.value)

def Element.spelled (e : Element) (declared : List Declaration) : List (String × String) :=
  declared.map Declaration.spelled ++ e.attributes.map Attribute.spelled

/-- The value that the innermost of the open start tags has for `xmlns` that has one, or else the
empty string. -/
def nearestDefault (tags : List (List (String × String))) : String :=
  (tags.findSome? fun tag =>
    (tag.find? fun (name, _) => name == "xmlns").map Prod.snd).getD ""

namespace Outline

mutual

/-- The elements of an outline in the order of their start tags, each with what stands in the start
tags that are open behind its own, which comes first. `around` are those that are open around the
outline. -/
def openings (around : List (List (String × String))) :
    Outline → List (Element × List (List (String × String)))
  | .other _ => []
  | .element e declared _ content =>
    (e, e.spelled declared :: around) :: allOpenings (e.spelled declared :: around) content

def allOpenings (around : List (List (String × String))) :
    List Outline → List (Element × List (List (String × String)))
  | [] => []
  | o :: rest => o.openings around ++ allOpenings around rest

end

theorem allOpenings_flatMap {α : Type} (around : List (List (String × String))) (l : List α)
    (f : α → List Outline) :
    allOpenings around (l.flatMap f) = l.flatMap fun x => allOpenings around (f x) := by
  have happend : ∀ l l', allOpenings around (l ++ l') =
      allOpenings around l ++ allOpenings around l' := by
    intro l l'
    induction l with
    | nil => simp [allOpenings]
    | cons o rest ih => simp [allOpenings, ih]
  induction l with
  | nil => simp [allOpenings]
  | cons x rest ih => simp [happend, ih]

end Outline

theorem nearestDefault_cons (tag : List (String × String)) (tags : List (List (String × String))) :
    nearestDefault (tag :: tags) =
      ((tag.find? fun (name, _) => name == "xmlns").map Prod.snd).getD (nearestDefault tags) := by
  rw [nearestDefault, List.findSome?_cons]
  cases tag.find? fun (name, _) => name == "xmlns" <;> rfl

/-- A start tag sees to it that the default namespace behind it is the one that was asked for, if no
attribute passes for a declaration of it. -/
theorem nearestDefault_spelled {tags : List (List (String × String))} {around : String}
    (h : nearestDefault tags = around) {e : Element}
    (ha : ∀ a ∈ e.attributes, a.qualifiedName ≠ "xmlns") (more : List Declaration) :
    nearestDefault (e.spelled (e.declared more around) :: tags) =
      e.defaultNamespace more around := by
  have hattributes : (e.attributes.map Attribute.spelled).find?
      (fun (name, _) => name == "xmlns") = none :=
    List.find?_eq_none.mpr (List.forall_mem_map.mpr fun a hmem => by
      simpa [Attribute.spelled] using ha a hmem)
  have hprefixed : ∀ ds : List Declaration, ((ds.filter fun d => d.qualifier.isSome).map
      Declaration.spelled).find? (fun (name, _) => name == "xmlns") = none := by
    refine fun ds => List.find?_eq_none.mpr (List.forall_mem_map.mpr fun d hd => ?_)
    obtain ⟨q, hq⟩ := Option.isSome_iff_exists.mp (List.mem_filter.mp hd).2
    -- a name that begins with `xmlns:` is longer
    have hne : "xmlns:" ++ q ≠ "xmlns" := fun heq => by
      have hlength : ("xmlns:" ++ q).length = 5 := congrArg String.length heq
      have hlong : "xmlns:".length = 6 := rfl
      rw [String.length_append] at hlength
      omega
    simpa [Declaration.spelled, hq] using hne
  rw [nearestDefault_cons, Element.spelled, List.find?_append, hattributes, Option.or_none,
    Element.declared, List.map_append, List.find?_append, hprefixed, Option.or_none, h]
  split
  · rename_i hsame
    exact hsame.symm
  · rfl

namespace Document

/-- Around an element without a prefix the default namespace is the element's own, if it is the one
that the writer takes for the default before it begins. -/
theorem nearestDefault_outlineUpTo {doc : Document}
    (ha : doc.Every fun e => ∀ a ∈ e.attributes, a.qualifiedName ≠ "xmlns") (void : Bool)
    (depth : Nat) (more : List Declaration) (default : String) (id : NodeId)
    {around : List (List (String × String))} (h : nearestDefault around = default) :
    ∀ opening ∈ Outline.allOpenings around (doc.outlineUpTo void depth more default id),
      opening.1.qualifier = none →
        nearestDefault opening.2 = opening.1.namespaceUri.getD "" := by
  induction depth generalizing more default around id with
  | zero => simp [outlineUpTo, Outline.allOpenings]
  | succ depth ih =>
    unfold outlineUpTo
    cases hp : doc.payload id with
    | document =>
      simp only [Outline.allOpenings_flatMap, List.mem_flatMap]
      rintro opening ⟨child, -, hopening⟩
      exact ih [] default child h opening hopening
    | element e =>
      have hinside := nearestDefault_spelled h (ha id e hp) more
      simp only [Outline.allOpenings, Outline.openings, List.append_nil, List.mem_cons,
        Outline.allOpenings_flatMap, List.mem_flatMap]
      rintro opening (rfl | ⟨child, -, hopening⟩) hq
      · rw [hinside, Element.defaultNamespace, hq]
      · exact ih [] _ child hinside opening hopening hq
    | text | comment | instruction => simp [Outline.allOpenings, Outline.openings]

/-- The outline of the markup of any node. That of the document node is made of those of its
children, each by itself. -/
def wholeOutline (doc : Document) (void : Bool) (id : NodeId) : List Outline :=
  match doc.payload id with
  | .document => (doc.children id).flatMap (doc.outline void)
  | _ => doc.outline void id

theorem render_wholeOutline (doc : Document) (void : Bool) (id : NodeId) :
    Outline.renderAll (doc.wholeOutline void id) = doc.markup void id := by
  have halone : ∀ x, Outline.renderAll (doc.outline void x) =
      doc.standaloneMarkup (void && doc.isHtml) x := fun x => render_outlineUpTo ..
  unfold wholeOutline markup
  cases doc.payload id with
  | document => simp only [Outline.renderAll_flatMap, halone]
  | element | text | comment | instruction => exact halone id

/-- In the markup of any node of a document, whatever was done to it, an element without a prefix
stands where the default namespace is its own: the innermost `xmlns` of the start tags that are open
there, its own included, has the element's namespace, or none or the empty one if it is in no
namespace. No attribute may pass for such a declaration. -/
theorem nearestDefault_markup {doc : Document}
    (ha : doc.Every fun e => ∀ a ∈ e.attributes, a.qualifiedName ≠ "xmlns") (void : Bool)
    (id : NodeId) :
    Outline.renderAll (doc.wholeOutline void id) = doc.markup void id ∧
      ∀ opening ∈ Outline.allOpenings [] (doc.wholeOutline void id),
        opening.1.qualifier = none →
          nearestDefault opening.2 = opening.1.namespaceUri.getD "" := by
  refine ⟨render_wholeOutline doc void id, ?_⟩
  have halone : ∀ x, ∀ opening ∈ Outline.allOpenings [] (doc.outline void x),
      opening.1.qualifier = none → nearestDefault opening.2 = opening.1.namespaceUri.getD "" :=
    fun x => nearestDefault_outlineUpTo ha _ _ _ "" x rfl
  unfold wholeOutline
  cases doc.payload id with
  | document =>
    rw [Outline.allOpenings_flatMap]
    intro opening hopening
    obtain ⟨child, -, hopening⟩ := List.mem_flatMap.mp hopening
    exact halone child opening hopening
  | element | text | comment | instruction => exact halone id

end Document

def regroupedMarkup : String := "<r xmlns='u'><a k='1'/><p:b xmlns:p='v' xmlns='w'><c/></p:b></r>"

def regrouped : Document :=
  (Change.edit [.renameElement 2 none none, .renameElement 4 none (some "u"),
    .undeclare 3 none]).apply (.ofMarkup regroupedMarkup)

/-- The default namespace is taken away for one of them, and comes from the root for the other. -/
theorem nearestDefault_markup_regrouped :
    (regrouped.Every fun e => ∀ a ∈ e.attributes, a.qualifiedName ≠ "xmlns") ∧
    regrouped.markup true Document.root =
      "<r xmlns=\"u\"><a xmlns=\"\" k=\"1\"></a><p:b xmlns:p=\"v\"><c></c></p:b></r>" ∧
    (Outline.allOpenings [] (regrouped.wholeOutline true Document.root)).map (fun opening =>
      (opening.1.name, opening.2)) = [
        ("r", [[("xmlns", "u")]]),
        ("a", [[("xmlns", ""), ("k", "1")], [("xmlns", "u")]]),
        ("b", [[("xmlns:p", "v")], [("xmlns", "u")]]),
        ("c", [[], [("xmlns:p", "v")], [("xmlns", "u")]])] ∧
    ∀ opening ∈ Outline.allOpenings [] (regrouped.wholeOutline true Document.root),
      opening.1.qualifier = none →
        nearestDefault opening.2 = opening.1.namespaceUri.getD "" := by
  have hplain : regrouped.Every fun e => ∀ a ∈ e.attributes, a.qualifiedName ≠ "xmlns" :=
    .of_nodes (by decide +kernel)
  exact ⟨hplain, by decide +kernel, by decide +kernel,
    (Document.nearestDefault_markup hplain true Document.root).2⟩

end MarkupQuery.Tree
