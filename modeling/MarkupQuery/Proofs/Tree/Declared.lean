import MarkupQuery.Proofs.Tree.Assembled
import MarkupQuery.Proofs.Tree.ReadBack

namespace MarkupQuery.Tree

open Document

theorem Document.exists_holds {doc : Document} {parent child : NodeId} {ids : List NodeId}
    {trees : List Subtree} (h : doc.HoldsBelow parent ids trees) (hc : child ∈ ids) :
    ∃ tree ∈ trees, doc.Holds child tree := by
  induction trees generalizing ids with
  | nil =>
    cases ids with
    | nil => cases hc
    | cons => simp [HoldsBelow] at h
  | cons tree rest ih =>
    cases ids with
    | nil => cases hc
    | cons id ids =>
      rw [HoldsBelow] at h
      obtain ⟨-, htree, hrest⟩ := h
      rcases List.mem_cons.mp hc with rfl | hc
      · exact ⟨tree, by simp, htree⟩
      · obtain ⟨found, hfound, hholds⟩ := ih hrest hc
        exact ⟨found, List.mem_cons_of_mem _ hfound, hholds⟩

namespace Element.ScopedIn

variable {e : Element} {outer inner : List Declaration} {q u : String}

/-- What an element declares is what comes in with it. -/
theorem find_declarations (h : e.ScopedIn outer inner) (hu : ⟨some q, u⟩ ∈ inner) :
    ((e.declarations.find? fun d => d.qualifier == some q).map Declaration.uri = some u) ∨
      (e.declarations.find? fun d => d.qualifier == some q) = none ∧ ⟨some q, u⟩ ∈ outer := by
  have honce := h.scope.once
  by_cases hmem : ⟨some q, u⟩ ∈ outer
  · refine .inr ⟨List.find?_eq_none.mpr fun d hd hq => ?_, hmem⟩
    obtain ⟨qualifier, v⟩ := d
    obtain rfl : qualifier = some q := by simpa using hq
    rw [h.declarations, List.mem_filter] at hd
    obtain rfl := honce.uri_eq hu hd.1
    simp [hmem] at hd
  · left
    have hown : ⟨some q, u⟩ ∈ e.declarations := by
      rw [h.declarations, List.mem_filter]
      exact ⟨hu, by simpa using hmem⟩
    rw [h.resolved.declarations.find_eq hown]
    rfl

/-- An element as it is read, without an empty prefix, can be written. -/
theorem writable (h : e.ScopedIn outer inner) (hempty : e.qualifier ≠ some "") : e.Writable where
  qualifier q hq := by
    obtain ⟨u, hu, rfl | ⟨hname, hmem⟩⟩ := h.qualifier q hq
    · exact absurd hq hempty
    · exact ⟨hname.ne_empty, ((h.scope.legible _ hmem).qualifier q rfl).2, by simp [hu]⟩
  namespaceUri hu := (h.namespaceUri "" hu).1 rfl
  attributes a ha := by
    refine (h.attributes a ha).bound.imp_right (Or.imp_right ?_)
    rintro ⟨q, u, hq, hu, hmem⟩
    obtain ⟨hname, hne⟩ := (h.scope.legible _ hmem).qualifier q rfl
    exact ⟨q, u, hname.ne_empty, hne, hq, hu⟩
  declarations := h.resolved.declarations

/-- The prefixes that an element relies on are in its scope, but for an empty one. -/
theorem mem_of_needed (h : e.ScopedIn outer inner) (hempty : e.qualifier = some "" → q ≠ "")
    (hn : ⟨some q, u⟩ ∈ e.needed) : ⟨some q, u⟩ ∈ inner := by
  simp only [Element.needed, List.mem_append, Option.mem_toList, List.mem_filterMap,
    neededDeclaration_eq_some] at hn
  rcases hn with ⟨_, _, hq, hu, -, ⟨⟩⟩ | ⟨a, ha, _, _, hq, hu, hx, ⟨⟩⟩
  · obtain ⟨v, hv, rfl | ⟨-, hmem⟩⟩ := h.qualifier q hq
    · exact absurd rfl (hempty hq)
    · rwa [Option.some.inj (hu.symm.trans hv)]
  · rcases (h.attributes a ha).bound with ⟨hnone, -⟩ | ⟨hxml, -⟩ | ⟨q', u', hq', hu', hmem⟩
    · simp [hnone] at hq
    · rw [hxml] at hq
      exact absurd (Option.some.inj hq).symm hx
    · rwa [Option.some.inj (hq.symm.trans hq'), Option.some.inj (hu.symm.trans hu')]

end Element.ScopedIn

namespace Forest

variable {doc : Document} {top id child x : NodeId} {q u : String}

theorem declaredWithin_self (h : Forest doc doc.children) (top : NodeId) (q : Option String) :
    doc.declaredWithin top top q = doc.declaredAt q top := by
  rw [declaredWithin, h.upTo_self]
  simp

theorem declaredWithin_child (h : Forest doc doc.children) (hc : doc.parent child = some id)
    (hx : doc.Within x child) (q : Option String) :
    doc.declaredWithin id x q = (doc.declaredWithin child x q).or (doc.declaredAt q id) := by
  rw [declaredWithin, h.upTo_child hc hx, List.findSome?_append, ← declaredWithin]
  simp

/-- What is in the scope of an element below `id` is declared between the two, or else it is in force
around `id`. -/
theorem exists_scope (h : Forest doc doc.children) {tree : Subtree} {outer : List Declaration}
    (ht : tree.ScopedIn outer) (hholds : doc.Holds id tree) {e : Element} (hx : x ∈ doc.subtree id)
    (he : doc.element? x = some e) : ∃ around inner, e.ScopedIn around inner ∧
      ∀ q u, ⟨some q, u⟩ ∈ inner → doc.declaredWithin id x (some q) = some u ∨
        doc.declaredWithin id x (some q) = none ∧ ⟨some q, u⟩ ∈ outer := by
  induction ht generalizing id with
  | @leaf outer payload hp =>
    rw [Holds] at hholds
    obtain ⟨-, hpayload, hbelow⟩ := hholds
    have hkids : doc.children id = [] := by
      cases hids : doc.children id with
      | nil => rfl
      | cons => simp [hids, HoldsBelow] at hbelow
    rw [h.subtree_eq, hkids, List.flatMap_nil, List.mem_singleton] at hx
    subst hx
    rw [element?_eq_some, hpayload] at he
    exact (he ▸ hp : (Payload.element e).Legible).elim
  | @element outer inner above children habove _ ih =>
    rw [Holds] at hholds
    obtain ⟨-, hpayload, hbelow⟩ := hholds
    have hown : doc.element? id = some above := element?_eq_some.mpr hpayload
    -- what is in the scope of the element itself
    have hhere : ∀ q u, ⟨some q, u⟩ ∈ inner → doc.declaredAt (some q) id = some u ∨
        doc.declaredAt (some q) id = none ∧ ⟨some q, u⟩ ∈ outer := by
      intro q u hu
      have hdeclarations : doc.declarations id = above.declarations := by
        simp [Document.declarations, hown]
      rw [declaredAt, hdeclarations]
      exact (habove.find_declarations hu).imp_right (And.imp_left fun hnone => by rw [hnone]; rfl)
    rw [h.subtree_eq, List.mem_cons, List.mem_flatMap] at hx
    rcases hx with rfl | ⟨child, hchild, hx⟩
    · obtain rfl := Option.some.inj (hown.symm.trans he)
      exact ⟨outer, inner, habove, by simpa only [h.declaredWithin_self] using hhere⟩
    · obtain ⟨tree, htree, hholds⟩ := exists_holds hbelow hchild
      obtain ⟨around, scope, hscoped, hfound⟩ := ih tree htree hholds hx
      refine ⟨around, scope, hscoped, fun q u hu => ?_⟩
      rw [h.declaredWithin_child ((h.mem_kids child id).mp hchild) (h.mem_subtree.mp hx)]
      rcases hfound q u hu with hsome | ⟨hnone, hmem⟩
      · exact .inl (by rw [hsome]; rfl)
      · rw [hnone, Option.none_or]
        exact hhere q u hmem

end Forest

/-- From `top` downwards every element can be written, and the nearest declaration of each prefix that
it relies on is the one that it means. -/
def Document.SelfContained (doc : Document) (top : NodeId) : Prop :=
  ∀ x ∈ doc.subtree top, ∀ e, doc.element? x = some e → e.Writable ∧
    ∀ q u, ⟨some q, u⟩ ∈ e.needed → doc.declaredWithin top x (some q) = some u

/-- What is in the scope of an element that is read from markup is declared on it or around it. -/
theorem Document.exists_scope_of_parse {markup : String} {doc : Document} {top x : NodeId}
    {e : Element} (h : Document.parse markup = .ok doc) (htop : top ∈ doc.children root)
    (hx : x ∈ doc.subtree top) (he : doc.element? x = some e) :
    ∃ around inner, e.ScopedIn around inner ∧
      ∀ q u, ⟨some q, u⟩ ∈ inner → doc.declaredWithin top x (some q) = some u := by
  obtain ⟨kids, hk⟩ := Forest.exists_parse h
  obtain ⟨trees, hscoped, rfl⟩ := Document.parse_eq_ok h
  have hholds := Forest.holdsBelow_ofSubtrees fun tree ht => (hscoped tree ht).proper
  obtain ⟨tree, htree, hholds⟩ := exists_holds hholds htop
  obtain ⟨around, inner, hin, hfound⟩ := hk.self.exists_scope (hscoped tree htree) hholds hx he
  -- nothing is in force around the top
  exact ⟨around, inner, hin, fun q u hu => by simpa using hfound q u hu⟩

/-- What is read from markup that has no names with an empty prefix is self-contained. -/
theorem Document.selfContained_of_parse {markup : String} {doc : Document} {top : NodeId}
    (h : Document.parse markup = .ok doc) (htop : top ∈ doc.children root)
    (hempty : doc.Every fun e => e.qualifier ≠ some "") : doc.SelfContained top := by
  intro x hx e he
  obtain ⟨around, inner, hin, hfound⟩ := Document.exists_scope_of_parse h htop hx he
  have hplain := hempty x e (element?_eq_some.mp he)
  exact ⟨hin.writable hplain, fun q u hn =>
    hfound q u (hin.mem_of_needed (fun he => absurd he hplain) hn)⟩

end MarkupQuery.Tree
