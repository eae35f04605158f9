import Mathlib.Data.List.Find
import MarkupQuery.Proofs.Tree.Declared
import MarkupQuery.Tree.NamespaceEdit

namespace MarkupQuery.Tree

open Document

def Element.entered (qualifier uri : String) (isTop : Bool) (e : Element) : Element where
  name := e.name
  qualifier := some qualifier
  namespaceUri := some uri
  attributes := e.attributes
  declarations :=
    if isTop then
      NamespaceEdit.withoutDeclaration (some qualifier) e.declarations ++ [⟨some qualifier, uri⟩]
    else e.declarations

/-- `new` is `doc`, possibly with further trees beside it, after the elements from `id` downwards were
put into a namespace. -/
structure Document.Entered (doc new : Document) (id : NodeId) (qualifier uri : String) : Prop where
  size_le : doc.size ≤ new.size
  parent_eq : ∀ x, x < doc.size → new.parent x = doc.parent x
  children_eq : ∀ x, x < doc.size → new.children x = doc.children x
  payload_eq : ∀ x, x < doc.size → new.payload x = if x ∈ doc.subtree id then
    (doc.payload x).mapElement (Element.entered qualifier uri (x == id)) else doc.payload x

/-- From `id` downwards the prefix stands for no other namespace: no element below declares it for
one, and no attribute is written with it in one. -/
def Document.FreeFor (doc : Document) (id : NodeId) (qualifier uri : String) : Prop :=
  (∀ x ∈ doc.descendants id, ∀ d ∈ doc.declarations x, d.qualifier = some qualifier → d.uri = uri) ∧
    ∀ x ∈ doc.subtree id, ∀ a ∈ doc.attributes x, a.qualifier = some qualifier →
      a.namespaceUri = some uri

instance (doc : Document) (id : NodeId) (qualifier uri : String) :
    Decidable (doc.FreeFor id qualifier uri) := inferInstanceAs (Decidable (_ ∧ _))

namespace Forest

variable {doc : Document} {top id x y : NodeId}

/-- What stands around a node up to `top` is what stands between it and a node further in, and then
what stands around that one. -/
theorem upTo_append (h : Forest doc doc.children) (hid : doc.Within id top)
    (hx : doc.Within x id) :
    doc.upTo top x = (doc.ancestors x).takeWhile (· != id) ++ doc.upTo top id := by
  induction hx using Relation.ReflTransGen.head_induction_on with
  | refl =>
    obtain ⟨rest, ha⟩ := h.exists_ancestors id
    simp [ha]
  | @head a b ha hb ih =>
    have hid' : a ≠ id := by
      rintro rfl
      exact h.acyclic _ (.head' ha hb)
    have htop : a ≠ top := by
      rintro rfl
      exact h.acyclic _ (.head' ha (hb.trans hid))
    rw [h.upTo_of_ne ha htop, h.ancestors_eq ha, List.takeWhile_cons_of_pos (by simpa using hid'), ih]
    rfl

/-- A node that stands strictly between is below. -/
theorem mem_descendants_of_between (h : Forest doc doc.children) (hx : doc.Within x id)
    (hy : y ∈ (doc.ancestors x).takeWhile (· != id)) : y ∈ doc.descendants id := by
  have hne : y ≠ id := by simpa using List.mem_takeWhile_imp hy
  have hwithin : y ∈ doc.subtree id :=
    h.mem_subtree.mpr (h.within_of_mem_upTo hx (List.mem_append_left _ hy))
  exact (List.mem_cons.mp hwithin).resolve_left hne

/-- What stands between a node and one above it begins with the node itself. -/
theorem between_eq (h : Forest doc doc.children) (hx : doc.Below x id) :
    ∃ rest, (doc.ancestors x).takeWhile (· != id) = x :: rest := by
  have hne : x ≠ id := by
    rintro rfl
    exact h.acyclic _ hx
  obtain ⟨rest, hancestors⟩ := h.exists_ancestors x
  rw [hancestors, List.takeWhile_cons_of_pos (by simpa using hne)]
  exact ⟨_, rfl⟩

/-- Of two nodes above another one, the first of which is a child of the document node and the second
is no document node, the second one is not above the first. -/
theorem within_of_common (h : Forest doc doc.children) (hroot : doc.parent top = some root)
    (hid : id = root → doc.isElement root) (hx : doc.Within x top) (hx' : doc.Within x id) :
    doc.Within id top := by
  have hunique : Relator.RightUnique doc.ChildOf := fun _ _ _ hb hc =>
    Option.some.inj (hb.symm.trans hc)
  rcases Relation.ReflTransGen.total_of_right_unique hunique hx hx' with hw | hw
  · rcases Relation.ReflTransGen.cases_head hw with rfl | ⟨parent, hp, hw⟩
    · exact .refl
    · obtain rfl := Option.some.inj (hroot.symm.trans hp)
      rcases Relation.ReflTransGen.cases_head hw with heq | ⟨above, ha, -⟩
      · have helement := hid heq.symm
        simp [isElement, h.root_payload, Payload.isElement, Payload.element?] at helement
      · simp [ChildOf, h.parent_root] at ha
  · exact hw

end Forest

/-- A declaration that replaces those of its prefix is found for it; for others nothing changes. -/
theorem find_redeclared (ds : List Declaration) (q u r : String) :
    ((NamespaceEdit.withoutDeclaration (some q) ds ++ [(⟨some q, u⟩ : Declaration)]).find?
      fun d => d.qualifier == some r).map Declaration.uri =
      if r = q then some u
      else (ds.find? fun d => d.qualifier == some r).map Declaration.uri := by
  rw [List.find?_append]
  by_cases hr : r = q
  · subst hr
    have hnone : (NamespaceEdit.withoutDeclaration (some r) ds).find?
        (fun d => d.qualifier == some r) = none := by
      refine List.find?_eq_none.mpr fun d hd => ?_
      simpa using (List.mem_filter.mp hd).2
    simp [hnone]
  · have hsame : (NamespaceEdit.withoutDeclaration (some q) ds).find?
        (fun d => d.qualifier == some r) = ds.find? fun d => d.qualifier == some r := by
      rw [NamespaceEdit.withoutDeclaration, List.find?_filter]
      congr 1
      funext d
      by_cases hq : d.qualifier = some r <;> simp [hq, hr]
    simp [hsame, hr, Ne.symm hr]

/-- The names of an element rely on the same declarations as before, its own one apart. -/
theorem Element.mem_needed_entered {e : Element} {q r u v : String} {isTop : Bool} (hx : q ≠ "xml") :
    ⟨some r, v⟩ ∈ (e.entered q u isTop).needed ↔ (r = q ∧ v = u) ∨
      ∃ a ∈ e.attributes, neededDeclaration a.qualifier a.namespaceUri = some ⟨some r, v⟩ := by
  have hown : neededDeclaration (some q) (some u) = some ⟨some q, u⟩ :=
    neededDeclaration_eq_some.mpr ⟨q, u, rfl, rfl, hx, rfl⟩
  simp [Element.needed, Element.entered, hown]

theorem Element.Writable.entered {e : Element} {q u : String} (h : e.Writable) (hq : q ≠ "")
    (hx : q ≠ "xml") (hu : u ≠ "") (isTop : Bool) : (e.entered q u isTop).Writable where
  qualifier r hr := by
    obtain rfl := Option.some.inj hr
    exact ⟨hq, hx, rfl⟩
  namespaceUri he := hu (Option.some.inj he)
  attributes := h.attributes
  declarations := by
    unfold Element.entered
    split
    · refine (h.declarations.filter _).concat fun _ d hd => ?_
      simpa using (List.mem_filter.mp hd).2
    · exact h.declarations

namespace Document.Entered

variable {doc new : Document} {id top x : NodeId} {q r u v : String}
  (h : doc.Entered new id q u) (hd : Forest doc doc.children) (hn : Forest new new.children)
include h

section Frame

variable (htop : top < doc.size)
include htop hd hn

theorem within_iff : new.Within x top ↔ doc.Within x top := by
  constructor
  · intro hw
    induction hw with
    | refl => exact .refl
    | @tail b c _ hbc ih =>
      have hb : b ∈ doc.children c := by
        rw [← h.children_eq c htop]
        exact (hn.mem_kids b c).mpr hbc
      exact (ih (hd.kids_lt hb)).tail ((hd.mem_kids b c).mp hb)
  · intro hw
    induction hw with
    | refl => exact .refl
    | @tail b c _ hbc ih =>
      have hb : b < doc.size := hd.child_lt b c hbc
      exact (ih hb).tail ((h.parent_eq b hb).trans hbc)

theorem mem_subtree_iff : x ∈ new.subtree top ↔ x ∈ doc.subtree top := by
  rw [hn.mem_subtree, hd.mem_subtree, h.within_iff hd hn htop]

omit htop in
theorem upTo_eq (hx : doc.Within x top) : new.upTo top x = doc.upTo top x := by
  induction hx using Relation.ReflTransGen.head_induction_on with
  | refl => rw [hd.upTo_self, hn.upTo_self]
  | @head a b ha _ ih =>
    have ha' : new.parent a = some b := (h.parent_eq a (hd.child_lt a b ha)).trans ha
    by_cases hne : a = top
    · rw [hne, hd.upTo_self, hn.upTo_self]
    · rw [hd.upTo_of_ne ha hne, hn.upTo_of_ne ha' hne, ih]

end Frame

theorem element?_eq (hx : x < doc.size) : new.element? x = if x ∈ doc.subtree id then
    (doc.element? x).map (Element.entered q u (x == id)) else doc.element? x := by
  rw [element?, h.payload_eq x hx]
  split
  · exact Payload.element?_mapElement _ _
  · rfl

theorem attributes_eq (hx : x < doc.size) : new.attributes x = doc.attributes x := by
  rw [attributes, attributes, h.element?_eq hx]
  split
  · cases doc.element? x <;> rfl
  · rfl

include hd in
theorem rootElement?_eq : new.rootElement? = doc.rootElement? := by
  rw [rootElement?, rootElement?, h.children_eq root hd.root_lt]
  refine List.find?_congr fun x hx => ?_
  change (new.element? x).isSome = (doc.element? x).isSome
  rw [h.element?_eq (hd.kids_lt hx)]
  split
  · exact Option.isSome_map ..
  · rfl

/-- Only the top of the subtree has other declarations than before. -/
theorem declaredAt_eq (hel : id < doc.size → doc.isElement id) (hx : x < doc.size) :
    new.declaredAt (some r) x = if x = id ∧ r = q then some u else doc.declaredAt (some r) x := by
  unfold declaredAt declarations
  rw [h.element?_eq hx]
  by_cases hid : x = id
  · subst hid
    have hsubtree : x ∈ doc.subtree x := List.mem_cons_self
    obtain ⟨e, he⟩ : ∃ e, doc.element? x = some e := Option.isSome_iff_exists.mp (hel hx)
    simpa [he, hsubtree, Element.entered] using find_redeclared e.declarations q u r
  · have hne : (x == id) = false := by simpa using hid
    simp only [hne, hid, false_and, if_false]
    split
    · cases doc.element? x <;> rfl
    · rfl

section Bindings

variable (hel : id < doc.size → doc.isElement id) (htop : top < doc.size)
include hd hn hel htop

/-- Other prefixes, and all prefixes elsewhere, are declared as before. -/
theorem declaredWithin_eq (hx : doc.Within x top) (hout : r ≠ q ∨ x ∉ doc.subtree id) :
    new.declaredWithin top x (some r) = doc.declaredWithin top x (some r) := by
  rw [declaredWithin, declaredWithin, h.upTo_eq hd hn hx]
  refine findSome?_congr fun y hy => ?_
  have hy' := hd.subtree_lt htop (hd.mem_subtree.mpr (hd.within_of_mem_upTo hx hy))
  rw [h.declaredAt_eq hel hy', if_neg]
  rintro ⟨rfl, rfl⟩
  refine hout.elim (· rfl) fun hnot => hnot (hd.mem_subtree.mpr ?_)
  -- what stands around a node is above it
  rcases List.mem_append.mp hy with hy | hy
  · exact hd.mem_ancestors.mp ((List.takeWhile_prefix _).subset hy)
  · exact List.mem_singleton.mp hy ▸ hx

/-- Inside the subtree the prefix has the new declaration, unless another one is nearer. -/
theorem declaredWithin_inside (hid : doc.Within id top) (hx : doc.Within x id) :
    new.declaredWithin top x (some q) =
      (((doc.ancestors x).takeWhile (· != id)).findSome? (doc.declaredAt (some q))).or (some u) := by
  have hlt : ∀ y ∈ doc.subtree top, y < doc.size := fun y hy => hd.subtree_lt htop hy
  rw [declaredWithin, h.upTo_eq hd hn (hx.trans hid), hd.upTo_append hid hx, List.findSome?_append]
  congr 1
  · refine findSome?_congr fun y hy => ?_
    have hne : y ≠ id := by simpa using List.mem_takeWhile_imp hy
    have hy' := hd.mem_subtree.mp (List.mem_cons_of_mem _ (hd.mem_descendants_of_between hx hy))
    rw [h.declaredAt_eq hel (hlt y (hd.mem_subtree.mpr (hy'.trans hid))), if_neg fun hc => hne hc.1]
  · obtain ⟨rest, hrest⟩ : ∃ rest, doc.upTo top id = id :: rest := by
      by_cases hne : id = top
      · exact ⟨[], hne ▸ hd.upTo_self id⟩
      · obtain ⟨parent, hp, -⟩ := (Relation.ReflTransGen.cases_head hid).resolve_left hne
        exact ⟨_, hd.upTo_of_ne hp hne⟩
    rw [hrest, List.findSome?_cons,
      h.declaredAt_eq hel (hlt id (hd.mem_subtree.mpr hid)), if_pos ⟨rfl, rfl⟩]

end Bindings

section Reading

variable (hel : id < doc.size → doc.isElement id) (hroot : doc.parent top = some root)
  (hw : doc.SelfContained top) (hx : q ≠ "xml")
include hd hn hel hroot hw hx

/-- Names that the change leaves alone have the declarations that they had. -/
theorem declaredWithin_of_kept (hin : x ∈ doc.subtree top) (hr : new.ReliesOn x ⟨some r, v⟩)
    (hout : r ≠ q ∨ x ∉ doc.subtree id) : new.declaredWithin top x (some r) = some v := by
  have htop := hd.child_lt top root hroot
  obtain ⟨e, he, hneeded⟩ := hr
  rw [h.declaredWithin_eq hd hn hel htop (hd.mem_subtree.mp hin) hout]
  rw [h.element?_eq (hd.subtree_lt htop hin)] at he
  split at he
  · rename_i hid
    obtain ⟨old, hold, rfl⟩ := Option.map_eq_some_iff.mp he
    have hne : r ≠ q := hout.resolve_right (not_not_intro hid)
    obtain ⟨a, ha, hn⟩ := ((Element.mem_needed_entered hx).mp hneeded).resolve_left fun hc => hne hc.1
    refine (hw x hin old hold).2 r v (List.mem_append_right _ ?_)
    exact List.mem_filterMap.mpr ⟨a, ha, hn⟩
  · exact (hw x hin e he).2 r v hneeded

omit hw hx in
/-- In the subtree the prefix has the new declaration, unless another one is nearer. -/
theorem declaredWithin_of_mem (hin : x ∈ doc.subtree top) (hid : x ∈ doc.subtree id) :
    new.declaredWithin top x (some q) =
      (((doc.ancestors x).takeWhile (· != id)).findSome? (doc.declaredAt (some q))).or (some u) := by
  have hxid := hd.mem_subtree.mp hid
  refine h.declaredWithin_inside hd hn hel (hd.child_lt top root hroot) ?_ hxid
  exact hd.within_of_common hroot (by rintro rfl; exact hel hd.root_lt) (hd.mem_subtree.mp hin) hxid

/-- If every name has the declaration that it means, the prefix was free. -/
theorem freeFor_of_declared (hid : id ∈ doc.subtree top)
    (hall : ∀ x ∈ doc.subtree top, ∀ r v, new.ReliesOn x ⟨some r, v⟩ →
      new.declaredWithin top x (some r) = some v) : doc.FreeFor id q u := by
  have htop := hd.child_lt top root hroot
  have hin : ∀ x ∈ doc.subtree id, x ∈ doc.subtree top := fun x hx' =>
    hd.mem_subtree.mpr ((hd.mem_subtree.mp hx').trans (hd.mem_subtree.mp hid))
  have hnew : ∀ x ∈ doc.subtree id, ∀ e, doc.element? x = some e →
      new.element? x = some (e.entered q u (x == id)) := by
    intro x hx' e he
    rw [h.element?_eq (hd.subtree_lt htop (hin x hx')), if_pos hx', he]
    rfl
  -- every element of the subtree is in the namespace now
  have hown : ∀ x ∈ doc.subtree id, ∀ e, doc.element? x = some e →
      new.declaredWithin top x (some q) = some u := fun x hx' e he =>
    hall x (hin x hx') q u ⟨_, hnew x hx' e he, (Element.mem_needed_entered hx).mpr (.inl ⟨rfl, rfl⟩)⟩
  refine ⟨fun x hx' d hmem hdq => ?_, fun x hx' a ha haq => ?_⟩
  · have hbelow : x ∈ doc.subtree id := List.mem_cons_of_mem _ hx'
    obtain ⟨e, he, hmem⟩ := mem_declarations.mp hmem
    have hhere : doc.declaredAt (some q) x = some d.uri := by
      obtain ⟨qualifier, v⟩ := d
      subst hdq
      rw [declaredAt, declarations, he]
      exact congrArg _ ((hw x (hin x hbelow) e he).1.declarations.find_eq hmem)
    have hfound := hown x hbelow e he
    obtain ⟨rest, hbetween⟩ := hd.between_eq (hd.mem_descendants.mp hx')
    rw [h.declaredWithin_of_mem hd hn hel hroot (hin x hbelow) hbelow, hbetween,
      List.findSome?_cons, hhere] at hfound
    exact Option.some.inj hfound
  · obtain ⟨e, he, ha⟩ := mem_attributes.mp ha
    have hsome := (hw x (hin x hx') e he).1.qualified.attributes a ha (by simp [haq])
    obtain ⟨v, hv⟩ := Option.isSome_iff_exists.mp hsome
    have hneeded : ⟨some q, v⟩ ∈ (e.entered q u (x == id)).needed := (Element.mem_needed_entered hx).mpr
      (.inr ⟨a, ha, neededDeclaration_eq_some.mpr ⟨q, v, haq, hv, hx, rfl⟩⟩)
    have hfound := hall x (hin x hx') q v ⟨_, hnew x hx' e he, hneeded⟩
    rw [hv, ← hfound, hown x hx' e he]

/-- If the prefix was free, every name has the declaration that it means. -/
theorem declared_of_freeFor (hfree : id ∈ doc.subtree top → doc.FreeFor id q u)
    (hin : x ∈ doc.subtree top) (hr : new.ReliesOn x ⟨some r, v⟩) :
    new.declaredWithin top x (some r) = some v := by
  by_cases hout : r = q ∧ x ∈ doc.subtree id
  · obtain ⟨rfl, hid⟩ := hout
    have hxid := hd.mem_subtree.mp hid
    have hid' := hd.within_of_common hroot (by rintro rfl; exact hel hd.root_lt)
      (hd.mem_subtree.mp hin) hxid
    obtain ⟨hbelow, hattributes⟩ := hfree (hd.mem_subtree.mpr hid')
    obtain ⟨e, he, hneeded⟩ := hr
    rw [h.element?_eq (hd.subtree_lt (hd.child_lt top root hroot) hin), if_pos hid] at he
    obtain ⟨old, hold, rfl⟩ := Option.map_eq_some_iff.mp he
    obtain rfl : v = u := by
      rcases (Element.mem_needed_entered hx).mp hneeded with ⟨-, hv⟩ | ⟨a, ha, hneeds⟩
      · exact hv
      · obtain ⟨_, _, haq, hav, -, ⟨⟩⟩ := neededDeclaration_eq_some.mp hneeds
        have hmem : a ∈ doc.attributes x := by simpa [attributes, hold] using ha
        exact Option.some.inj (hav.symm.trans (hattributes x hid a hmem haq))
    rw [h.declaredWithin_of_mem hd hn hel hroot hin hid]
    cases hbetween : ((doc.ancestors x).takeWhile (· != id)).findSome? (doc.declaredAt (some r)) with
    | none => rfl
    | some w =>
      -- what is nearer declares the prefix for the same namespace
      obtain ⟨y, hy, hfound⟩ := List.exists_of_findSome?_eq_some hbetween
      obtain ⟨d, hfind, rfl⟩ := Option.map_eq_some_iff.mp hfound
      have hdq : d.qualifier = some r := by simpa using List.find?_some hfind
      have hy' := hd.mem_descendants_of_between hxid hy
      rw [Option.some_or, hbelow y hy' d (List.mem_of_find?_eq_some hfind) hdq]
  · exact h.declaredWithin_of_kept hd hn hel hroot hw hx hin hr (not_and_or.mp hout)

/-- The markup of the element at the top is read back if, and only if, the prefix was free for the
namespace from the changed element downwards. -/
theorem readsBack_iff (hist : doc.isElement top) (hq : q ≠ "") (hu : u ≠ "") (void : Bool) :
    (∀ tag ∈ Outline.allTags [] (new.outline void top), tag.1.ReadsBack tag.2) ↔
      (id ∈ doc.subtree top → doc.FreeFor id q u) := by
  have htop := hd.child_lt top root hroot
  have hsame : ∀ x, x ∈ new.subtree top ↔ x ∈ doc.subtree top := fun x =>
    h.mem_subtree_iff hd hn htop
  have hist' : new.isElement top := by
    change (new.element? top).isSome = true
    rw [h.element?_eq htop]
    split
    · rwa [Option.isSome_map]
    · exact hist
  have hw' : ∀ x ∈ new.subtree top, ∀ e, new.element? x = some e → e.Writable := by
    intro x hx' e he
    rw [hsame] at hx'
    rw [h.element?_eq (hd.subtree_lt htop hx')] at he
    split at he
    · obtain ⟨old, hold, rfl⟩ := Option.map_eq_some_iff.mp he
      exact (hw x hx' old hold).1.entered hq hx hu _
    · exact (hw x hx' e he).1
  have hdeclared : ∀ x ∈ new.subtree top, ∀ r v, new.ReliesOn x ⟨some r, v⟩ →
      (new.declaredWithin top x (some r)).isSome := by
    intro x hx' r v hr
    rw [hsame] at hx'
    by_cases hin : r = q ∧ x ∈ doc.subtree id
    · rw [hin.1, h.declaredWithin_of_mem hd hn hel hroot hx' hin.2]
      simp
    · rw [h.declaredWithin_of_kept hd hn hel hroot hw hx hx' hr (not_and_or.mp hin)]
      rfl
  rw [Document.readsBack_iff hn hw' hist' void hdeclared]
  simp only [hsame]
  exact ⟨fun hall hid => h.freeFor_of_declared hd hn hel hroot hw hx hid hall,
    fun hfree x hx' r v hr => h.declared_of_freeFor hd hn hel hroot hw hx hfree hx' hr⟩

end Reading

end Document.Entered

end MarkupQuery.Tree
