import MarkupQuery.Proofs.Tree.Batches
import MarkupQuery.Proofs.Tree.Layout

namespace MarkupQuery.Tree

namespace Document

def LoneRoot (doc : Document) : Prop := ∀ id, id < doc.size → doc.payload id = .document → id = root

namespace LoneRoot

variable {doc new : Document}

theorem of_payload_eq (h : doc.LoneRoot) (hs : new.size = doc.size)
    (hp : ∀ id, new.payload id = .document → doc.payload id = .document) : new.LoneRoot :=
  fun id hid hd => h id (hs ▸ hid) (hp id hd)

theorem updateElement (h : doc.LoneRoot) (id : NodeId) (f : Element → Element) :
    (doc.updateElement id f).LoneRoot := by
  refine h.of_payload_eq (size_updateElement doc id f) fun x hx => ?_
  rw [Document.payload, node_updateElement] at hx
  dsimp only at hx
  split at hx
  · exact (Payload.mapElement_eq_document f _).mp hx
  · exact hx

theorem create {payload : Payload} (h : doc.LoneRoot) (hp : payload ≠ .document) :
    (doc.create payload).1.LoneRoot := by
  intro id hid hd
  rw [payload_create] at hd
  rw [size_create] at hid
  split at hd
  · exact absurd hd hp
  · rename_i hne
    exact h id (Nat.lt_of_le_of_ne (Nat.le_of_lt_succ hid) hne) hd

mutual

theorem graft : ∀ {tree : Subtree} {doc : Document}, doc.LoneRoot → tree.Proper →
    (doc.graft tree).1.LoneRoot
  | .mk _ children, _, h, .mk hp _ ht => graftBelow children (h.create hp) ht

theorem graftBelow : ∀ (trees : List Subtree) {doc : Document} {parent : NodeId}, doc.LoneRoot →
    (∀ tree ∈ trees, tree.Proper) → (doc.graftBelow parent trees).LoneRoot
  | [], _, _, h, _ => h
  | tree :: rest, doc, parent, h, ht => by
    have htree := graft h (ht tree (by simp))
    have hlinked := htree.of_payload_eq (size_linkLast _ parent (doc.graft tree).2) fun id =>
      (payload_linkLast _ parent (doc.graft tree).2 id ▸ ·)
    exact graftBelow rest hlinked fun t htr => ht t (by simp [htr])

end

theorem empty : Document.empty.LoneRoot := by
  intro id hid _
  exact Nat.lt_one_iff.mp hid

theorem parse {markup : String} (h : Document.parse markup = .ok doc) : doc.LoneRoot := by
  obtain ⟨trees, hscoped, rfl⟩ := parse_eq_ok h
  exact graftBelow trees empty fun tree ht => (hscoped tree ht).proper

end LoneRoot

end Document

/-- A forest with one document node, of elements whose prefixes and namespaces are paired. -/
structure Document.Sound (doc : Document) : Prop where
  exists_forest : ∃ kids, Forest doc kids
  loneRoot : doc.LoneRoot
  every : doc.Every Element.Paired

theorem Subtree.Every.declaring {P : Element → Prop} {tree : Subtree} {more : List Declaration}
    (h : tree.Every P) (hp : ∀ e, P e → P { e with declarations := e.declarations ++ more }) :
    (Document.Subtree.declaring more tree).Every P := by
  cases h with
  | @mk payload children he ht =>
    cases payload with
    | element e => exact .mk (fun _ h => Payload.element.inj h ▸ hp e (he e rfl)) ht
    | _ => exact .mk he ht

/-- Prefixes and namespaces stay paired if the declarations change. -/
theorem Element.Paired.redeclared {e : Element} (h : e.Paired) (ds : List Declaration) :
    Element.Paired { e with declarations := ds } :=
  ⟨⟨h.element, h.attributes⟩, h.prefixed⟩

namespace NamespaceEdit

/-- A prefix that an edit gives to a name comes with a namespace, and one that it takes from an
attribute goes with it. -/
def Binds : NamespaceEdit → Prop
  | renameElement _ qualifier uri => qualifier.isSome → uri.isSome
  | renameAttribute _ _ qualifier uri => qualifier.isSome ↔ uri.isSome
  | declare _ _ _ | undeclare _ _ => True

theorem isSome_of_checkBinding {qualifier uri : Option String}
    (h : checkBinding qualifier uri = .ok ()) : qualifier.isSome → uri.isSome := by
  unfold checkBinding at h
  split at h <;> simp at h ⊢

theorem binds_of_check {doc : Document} {edit : NamespaceEdit} (h : edit.check doc = .ok ()) :
    edit.Binds := by
  unfold check at h
  split at h
  · simp at h
  split at h
  · simp at h
  rename_i target _
  have hon : edit.checkOn target = .ok () := by
    cases hc : edit.checkOn target with
    | ok => rfl
    | error e => simp [hc, Except.mapError] at h
  cases edit with
  | renameElement element qualifier uri => exact isSome_of_checkBinding hon
  | renameAttribute element index qualifier uri =>
    simp only [checkOn] at hon
    split at hon
    · simp at hon
    split at hon
    · simp at hon
    -- the check of attributes is made in front of the one that elements have too
    rename_i hbare
    refine ⟨isSome_of_checkBinding hon, fun huri => ?_⟩
    simpa [huri, Option.isSome_iff_ne_none] using hbare
  | declare | undeclare => trivial

theorem paired_onElement {edit : NamespaceEdit} {e : Element} (hb : edit.Binds)
    (h : e.Paired) : (edit.onElement e).Paired := by
  cases edit with
  | renameElement element qualifier uri => exact ⟨⟨hb, h.attributes⟩, h.prefixed⟩
  | renameAttribute element index qualifier uri =>
    -- only the attribute at the index changes, and its new names are paired by the edit itself
    have hpair : ∀ a ∈ (onElement (.renameAttribute element index qualifier uri) e).attributes,
        a.qualifier.isSome ↔ a.namespaceUri.isSome := by
      intro a ha
      obtain ⟨i, hi⟩ := List.mem_iff_getElem?.mp ha
      rw [onElement, List.getElem?_modify] at hi
      cases hold : e.attributes[i]? with
      | none => simp [hold] at hi
      | some old =>
        rw [hold] at hi
        have hmem := List.mem_of_getElem? hold
        split at hi
        · obtain rfl := Option.some.inj hi
          exact hb
        · obtain rfl := Option.some.inj hi
          exact ⟨h.attributes old hmem, h.prefixed old hmem⟩
    exact ⟨⟨h.element, fun a ha => (hpair a ha).mp⟩, fun a ha => (hpair a ha).mpr⟩
  | declare | undeclare => exact h.redeclared _

end NamespaceEdit

namespace Document.Sound

variable {doc new : Document}

theorem empty : Document.empty.Sound := ⟨⟨_, Forest.empty⟩, .empty, .empty⟩

theorem parse {markup : String} (h : Document.parse markup = .ok doc) : doc.Sound where
  exists_forest := Forest.exists_parse h
  loneRoot := .parse h
  every := .of_parse h Element.ScopedIn.paired

theorem forest (h : doc.Sound) : Forest doc doc.children := by
  obtain ⟨kids, hk⟩ := h.exists_forest
  exact hk.self

theorem qualified (h : doc.Sound) : doc.Every Element.Qualified :=
  h.every.mono fun _ he => he.toQualified

theorem move (h : doc.Sound) (move : Move) (ho : move.change.make doc = .ok new) :
    new.Sound where
  exists_forest := h.forest.exists_make (by cases move <;> simp [Move.change]) ho
  loneRoot := h.loneRoot.of_payload_eq (Move.size_eq h.forest ho) fun id =>
    (Move.payload_eq h.forest ho id ▸ ·)
  every := h.every.of_payload_eq (Move.payload_eq h.forest ho)

theorem updateElement {f : Element → Element} (h : doc.Sound)
    (hf : ∀ e, e.Paired → (f e).Paired) (id : NodeId) : (doc.updateElement id f).Sound where
  exists_forest := ⟨_, h.forest.updateElement id f⟩
  loneRoot := h.loneRoot.updateElement id f
  every := h.every.updateElement hf id

theorem removeAttribute (h : doc.Sound) (id : NodeId) (name : String) :
    (doc.removeAttribute id name).1.Sound := by
  have hkept (e : Element) (he : e.Paired) : Element.Paired
      { e with attributes := e.attributes.filter fun a => a.qualifiedName != name } :=
    ⟨⟨he.element, fun a ha => he.attributes a (List.mem_of_mem_filter ha)⟩,
      fun a ha => he.prefixed a (List.mem_of_mem_filter ha)⟩
  exact h.updateElement hkept id

theorem importFrom {source : Document} {id copy : NodeId} (h : doc.Sound) (hs : source.Sound)
    (ho : doc.importFrom source id = .ok (new, copy)) : new.Sound where
  exists_forest := by
    obtain ⟨kids, hkids, -⟩ := h.forest.exists_importFrom hs.forest ho
    exact ⟨kids, hkids⟩
  loneRoot := by
    obtain ⟨top, htop, hgraft⟩ := Document.importFrom_eq_ok.mp ho
    have hgrafted := h.loneRoot.graft (hs.forest.proper_portableSubtree htop)
    rwa [hgraft] at hgrafted
  every := by
    obtain ⟨top, -, hgraft⟩ := Document.importFrom_eq_ok.mp ho
    have htree : (source.portableSubtree top).Every Element.Paired :=
      (hs.every.subtreeUpTo source.size top).declaring fun _ he => he.redeclared _
    have hdoc : (doc.graft (source.portableSubtree top)).1 = new := congrArg Prod.fst hgraft
    exact hdoc ▸ h.every.graft htree

theorem perform {edits : List NamespaceEdit} (h : doc.Sound) (hb : ∀ edit ∈ edits, edit.Binds) :
    (edits.foldl NamespaceEdit.perform doc).Sound := by
  induction edits generalizing doc with
  | nil => exact h
  | cons edit edits ih =>
    rw [List.forall_mem_cons] at hb
    exact ih (h.updateElement (fun _ => edit.paired_onElement hb.1) _) hb.2

theorem edit {edits : List NamespaceEdit} {count : Nat} (h : doc.Sound)
    (ho : doc.edit edits = .ok (new, count)) : new.Sound := by
  obtain ⟨hchecked, rfl, -⟩ := NamespaceEdit.edit_eq_ok.mp ho
  exact h.perform fun edit he => NamespaceEdit.binds_of_check (hchecked edit he)

theorem append {parent child : NodeId} (h : doc.Sound) (ho : doc.append parent child = .ok new) :
    new.Sound := h.move (.append parent child) ho

theorem parseFragment {fragment : String} {hints : List (String × String)}
    (h : Document.parseFragment fragment hints = .ok doc) : doc.Sound := by
  unfold Document.parseFragment at h
  cases hparse : Document.parse (wrapped fragment hints) with
  | error e => simp [hparse, bind, Except.bind] at h
  | ok holder =>
    simp only [hparse, bind, Except.bind] at h
    split at h
    · simp at h
    split at h
    · rename_i element _
      cases himport : Document.empty.importFrom holder element with
      | error e => simp [himport] at h
      | ok copied =>
        simp only [himport] at h
        exact (empty.importFrom (.parse hparse) himport).append h
    · simp at h

end Document.Sound

end MarkupQuery.Tree
