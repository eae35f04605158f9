import MarkupQuery.Proofs.Tree.Growth
import MarkupQuery.Proofs.Tree.Preorder

namespace MarkupQuery.Tree

open Document

namespace Document

mutual

/-- The tree stands at the node `id`, all that is below it at later nodes. -/
def Holds (doc : Document) (id : NodeId) : Subtree → Prop
  | .mk payload children =>
    id < doc.size ∧ doc.payload id = payload ∧ doc.HoldsBelow id (doc.children id) children

def HoldsBelow (doc : Document) (parent : NodeId) : List NodeId → List Subtree → Prop
  | [], [] => True
  | id :: ids, tree :: rest => parent < id ∧ doc.Holds id tree ∧ doc.HoldsBelow parent ids rest
  | _, _ => False

end

variable {doc new : Document}

theorem graft_snd (doc : Document) (tree : Subtree) : (doc.graft tree).2 = doc.size := by
  cases tree
  rfl

theorem importFrom_eq_ok {source : Document} {id copy : NodeId} :
    doc.importFrom source id = .ok (new, copy) ↔
      ∃ top, source.importTop id = .ok top ∧
        doc.graft (source.portableSubtree top) = (new, copy) := by
  unfold Document.importFrom
  cases source.importTop id <;> simp [bind, Except.bind, pure, Except.pure]

mutual

/-- A tree is still there if nothing has changed from its first node on. -/
theorem holds_of_eq : ∀ {tree : Subtree} {id : NodeId}, doc.Holds id tree →
    doc.size ≤ new.size → (∀ x, id ≤ x → x < doc.size →
      new.payload x = doc.payload x ∧ new.children x = doc.children x) → new.Holds id tree
  | .mk payload children, id, h, hsize, heq => by
    rw [Holds] at h ⊢
    obtain ⟨hid, hp, hbelow⟩ := h
    obtain ⟨hp', hk⟩ := heq id (Nat.le_refl id) hid
    refine ⟨Nat.lt_of_lt_of_le hid hsize, hp'.trans hp, ?_⟩
    rw [hk]
    exact holdsBelow_of_eq hbelow hsize fun x hx => heq x (Nat.le_of_lt hx)

theorem holdsBelow_of_eq : ∀ {trees : List Subtree} {ids : List NodeId} {parent : NodeId},
    doc.HoldsBelow parent ids trees → doc.size ≤ new.size → (∀ x, parent < x → x < doc.size →
      new.payload x = doc.payload x ∧ new.children x = doc.children x) →
    new.HoldsBelow parent ids trees
  | [], [], _, _, _, _ => by simp [HoldsBelow]
  | [], _ :: _, _, h, _, _ => by simp [HoldsBelow] at h
  | _ :: _, [], _, h, _, _ => by simp [HoldsBelow] at h
  | tree :: rest, id :: ids, parent, h, hsize, heq => by
    rw [HoldsBelow] at h ⊢
    obtain ⟨hlt, htree, hrest⟩ := h
    exact ⟨hlt, holds_of_eq htree hsize fun x hx => heq x (Nat.lt_of_lt_of_le hlt hx),
      holdsBelow_of_eq hrest hsize heq⟩

end

end Document

structure Grown (doc new : Document) : Prop where
  size_le : doc.size ≤ new.size
  parent_eq : ∀ id, id < doc.size → new.parent id = doc.parent id
  payload_eq : ∀ id, id < doc.size → new.payload id = doc.payload id

theorem Grown.trans {doc middle new : Document} (h : Grown doc middle) (h' : Grown middle new) :
    Grown doc new where
  size_le := Nat.le_trans h.size_le h'.size_le
  parent_eq id hid := by
    rw [h'.parent_eq id (Nat.lt_of_lt_of_le hid h.size_le), h.parent_eq id hid]
  payload_eq id hid := by
    rw [h'.payload_eq id (Nat.lt_of_lt_of_le hid h.size_le), h.payload_eq id hid]

theorem grown_create (doc : Document) (payload : Payload) : Grown doc (doc.create payload).1 where
  size_le := by simp
  parent_eq id hid := by rw [parent_create, if_neg (Nat.ne_of_lt hid)]
  payload_eq id hid := by rw [payload_create, if_neg (Nat.ne_of_lt hid)]

namespace Forest

variable {doc : Document} {kids : NodeId → List NodeId}

/-- Linking a node that came later below one without parent keeps what was there before. -/
theorem grown_linkLast {old : Document} {parent child : NodeId} (h : Forest doc kids)
    (hg : Grown old doc) (hfree : doc.parent child = none) (hp : parent < doc.size)
    (hc : child < doc.size) (hnew : old.size ≤ child) : Grown old (doc.linkLast parent child) := by
  have hi := h.inserted_linkLast hfree hp hc
  have hne : ∀ id, id < old.size → id ≠ child := fun id hid he => by omega
  refine ⟨?_, fun id hid => ?_, fun id hid => ?_⟩
  · rw [hi.size_eq]
    exact hg.size_le
  · rw [hi.parent_eq, if_neg (hne id hid), hg.parent_eq id hid]
  · rw [hi.payload_eq, hg.payload_eq id hid]

/-- A walk depends on the children of the nodes that it visits and on nothing else. -/
theorem subtree_congr {new : Document} {kids' : NodeId → List NodeId} {id : NodeId}
    (h : Forest doc kids) (h' : Forest new kids') (heq : ∀ x ∈ doc.subtree id, kids' x = kids x) :
    new.subtree id = doc.subtree id := by
  induction id using h.induction_below with
  | step id ih =>
    rw [h.subtree_eq] at heq ⊢
    obtain ⟨hid, hbelow⟩ := List.forall_mem_cons.mp heq
    rw [h'.subtree_eq, hid]
    refine congrArg (id :: ·) (List.flatMap_congr fun child hc => ih child hc fun x hx => ?_)
    exact hbelow x (List.mem_flatMap.mpr ⟨child, hc, hx⟩)

/-- A tree that is put below an older node without parent. -/
structure Planted (doc : Document) (tree : Subtree) (parent : NodeId)
    (kids : NodeId → List NodeId) : Prop where
  free : (doc.graft tree).1.parent doc.size = none
  parent_lt : parent < (doc.graft tree).1.size
  child_lt : doc.size < (doc.graft tree).1.size
  check : (doc.graft tree).1.checkInsertion parent doc.size = .ok ()
  forest : Forest ((doc.graft tree).1.linkLast parent doc.size)
    (Function.update kids parent (kids parent ++ [doc.size]))
  grown : Grown doc ((doc.graft tree).1.linkLast parent doc.size)

theorem planted {tree : Subtree} {parent : NodeId} {kids' : NodeId → List NodeId}
    (hproper : tree.Proper) (hp : parent < doc.size) (hfree : doc.parent parent = none)
    (hinner : (doc.payload parent).mayHaveChildren) (hnew : Forest (doc.graft tree).1 kids')
    (hgrown : Grown (doc.create tree.payload).1 (doc.graft tree).1) :
    Planted doc tree parent kids' := by
  have hpayload : tree.payload ≠ .document := by
    cases hproper
    assumption
  have hgrown' := (grown_create doc tree.payload).trans hgrown
  have hchild : doc.size < (doc.create tree.payload).1.size := by simp
  have hroot : (doc.graft tree).1.parent doc.size = none := by
    rw [hgrown.parent_eq _ hchild, parent_create, if_pos rfl]
  have htop : (doc.graft tree).1.payload doc.size ≠ .document := by
    rwa [hgrown.payload_eq _ hchild, payload_create, if_pos rfl]
  have hp' : parent < (doc.graft tree).1.size := Nat.lt_of_lt_of_le hp hgrown'.size_le
  have hc' : doc.size < (doc.graft tree).1.size := Nat.lt_of_lt_of_le hchild hgrown.size_le
  have hpfree : (doc.graft tree).1.parent parent = none := by
    rw [hgrown'.parent_eq _ hp, hfree]
  have hinner' : ((doc.graft tree).1.payload parent).mayHaveChildren := by
    rwa [hgrown'.payload_eq _ hp]
  -- `parent` has no parent, so nothing but itself is above it
  have habove : doc.size ∉ (doc.graft tree).1.ancestors parent := by
    rw [hnew.ancestors_top hpfree, List.mem_singleton]
    exact Nat.ne_of_gt hp
  exact {
    free := hroot, parent_lt := hp', child_lt := hc'
    check := by simp [checkInsertion, contains, hp', hc', hinner', htop, habove]
    forest := hnew.insert (hnew.inserted_linkLast hroot hp' hc') (by simp) hroot hc'
      (fun hw => habove (hnew.mem_ancestors.mpr hw)) htop hinner'
    grown := hnew.grown_linkLast hgrown' hroot hp' hc' (Nat.le_refl _) }

mutual

theorem exists_graft : ∀ {tree : Subtree} {doc : Document} {kids : NodeId → List NodeId},
    Forest doc kids → tree.Proper → ∃ kids', Forest (doc.graft tree).1 kids' ∧
      Grown (doc.create tree.payload).1 (doc.graft tree).1 ∧
      (∀ x, x < doc.size → kids' x = kids x) ∧ (doc.graft tree).1.Holds doc.size tree ∧
      (doc.graft tree).1.subtree doc.size =
        List.range' doc.size ((doc.graft tree).1.size - doc.size)
  | .mk payload children, doc, kids, h, .mk _ hc ht => by
    have hfree : (doc.create payload).1.parent doc.size = none := by
      rw [parent_create, if_pos rfl]
    have hpayload : (doc.create payload).1.payload doc.size = payload := by
      rw [payload_create, if_pos rfl]
    have hlt : doc.size < (doc.create payload).1.size := by simp
    have hinner : children ≠ [] → ((doc.create payload).1.payload doc.size).mayHaveChildren := by
      rw [hpayload]
      exact hc
    obtain ⟨kids', hnew, hgrown, hkids, ids, hids, hholds, hwalk⟩ :=
      exists_graftBelow children (h.create payload) hlt hfree hinner ht
    rw [h.kids_of_size_le (Nat.le_refl _), List.nil_append] at hids
    have hbelow : (doc.graft (.mk payload children)).1.children doc.size = ids :=
      (hnew.children_eq _).trans hids
    refine ⟨kids', hnew, hgrown, fun x hx => hkids x (by simp; omega) (Nat.ne_of_lt hx), ?_, ?_⟩
    · rw [Holds, hbelow]
      exact ⟨Nat.lt_of_lt_of_le hlt hgrown.size_le, (hgrown.payload_eq _ hlt).trans hpayload,
        hholds⟩
    · change ((doc.create payload).1.graftBelow doc.size children).subtree doc.size =
        List.range' doc.size (((doc.create payload).1.graftBelow doc.size children).size - doc.size)
      have hsize := hgrown.size_le
      rw [size_create] at hwalk hsize
      rw [hnew.subtree_eq, hids, hwalk, ← List.range'_succ]
      congr 1
      omega

theorem exists_graftBelow : ∀ (trees : List Subtree) {doc : Document}
    {kids : NodeId → List NodeId} {parent : NodeId}, Forest doc kids → parent < doc.size →
    doc.parent parent = none → (trees ≠ [] → (doc.payload parent).mayHaveChildren) →
    (∀ tree ∈ trees, tree.Proper) →
    ∃ kids', Forest (doc.graftBelow parent trees) kids' ∧
      Grown doc (doc.graftBelow parent trees) ∧
      (∀ x, x < doc.size → x ≠ parent → kids' x = kids x) ∧
      ∃ ids, kids' parent = kids parent ++ ids ∧
        (doc.graftBelow parent trees).HoldsBelow parent ids trees ∧
        ids.flatMap (doc.graftBelow parent trees).subtree =
          List.range' doc.size ((doc.graftBelow parent trees).size - doc.size)
  | [], _, kids, _, h, _, _, _, _ =>
    ⟨kids, h, ⟨Nat.le_refl _, fun _ _ => rfl, fun _ _ => rfl⟩, fun _ _ _ => rfl, [], by simp,
      by simp [HoldsBelow], by simp [graftBelow]⟩
  | tree :: rest, doc, kids, parent, h, hp, hfree, hinner, ht => by
    have hproper := ht tree (by simp)
    obtain ⟨kids', hnew, hgrown, hkids, hholds, hwalk⟩ := exists_graft h hproper
    have hplanted := planted hproper hp hfree (hinner (by simp)) hnew hgrown
    have hgrown' := (grown_create doc tree.payload).trans hgrown
    obtain ⟨kids'', hrest, hlast, hkept, ids, hids, hbelow, hwalks⟩ :=
      exists_graftBelow rest hplanted.forest (by simpa using hplanted.parent_lt)
        (by rw [hplanted.grown.parent_eq _ hp, hfree])
        (fun _ => by rw [hplanted.grown.payload_eq _ hp]; exact hinner (by simp))
        fun t htr => ht t (by simp [htr])
    -- below `parent` there is a new child, all else is as the first tree left it
    have hother : ∀ x, x < (doc.graft tree).1.size → x ≠ parent → kids'' x = kids' x := by
      intro x hx hne
      rw [hkept x (by simpa using hx) hne, Function.update_of_ne hne]
    rw [Function.update_self, hkids parent hp] at hids
    have hfirst := holds_of_eq hholds (by simpa using hlast.size_le) fun x hx hlt => by
      have hne : x ≠ parent := Nat.ne_of_gt (Nat.lt_of_lt_of_le hp hx)
      rw [hlast.payload_eq x (by simpa using hlt), hrest.children_eq, hnew.children_eq,
        hother x hlt hne]
      have hlinked := hnew.inserted_linkLast hplanted.free hplanted.parent_lt hplanted.child_lt
      exact ⟨hlinked.payload_eq x, rfl⟩
    -- the walk of the first tree stays, and the walks of the others begin where it ended
    have hkeep := hnew.subtree_congr hrest fun x hx => by
      have hsize := hgrown'.size_le
      rw [hwalk, List.mem_range'_1] at hx
      exact hother x (by omega) (Nat.ne_of_gt (Nat.lt_of_lt_of_le hp hx.1))
    simp only [Document.graftBelow, graft_snd]
    refine ⟨kids'', hrest, hplanted.grown.trans hlast, fun x hx hne => ?_, doc.size :: ids, ?_, ?_,
      ?_⟩
    · rw [hother x (Nat.lt_of_lt_of_le hx hgrown'.size_le) hne, hkids x hx]
    · rw [hids]
      simp
    · exact ⟨hp, hfirst, hbelow⟩
    · have hsize := hlast.size_le
      have hfrom := hgrown'.size_le
      rw [size_linkLast] at hwalks hsize
      rw [List.flatMap_cons, hkeep, hwalk, hwalks]
      have hend : (doc.graft tree).1.size = doc.size + ((doc.graft tree).1.size - doc.size) := by
        omega
      rw [hend, Nat.add_sub_cancel_left, List.range'_append_1]
      congr 1
      omega

end

theorem empty : Forest .empty fun _ => [] := by
  have hnode : ∀ x, Document.empty.node x = { payload := .document } := by
    intro x
    cases x <;> rfl
  have hparent : ∀ x, Document.empty.parent x = none := fun x => by rw [Document.parent, hnode]
  refine {
    acyclic := fun id hid => ?_, forward := fun x => ?_, backward := fun x => ?_
    nodup := by simp, mem_kids := by simp [hparent], orphan := fun x _ => ?_
    document := fun x _ => hparent x, leaf := by simp, child_lt := by simp [hparent]
    root_lt := by decide, root_payload := rfl }
  · obtain ⟨x, hx, -⟩ := Relation.TransGen.head'_iff.mp hid
    simp [ChildOf, hparent] at hx
  · rw [Document.firstChild, hnode]
    rfl
  · rw [Document.lastChild, hnode]
    rfl
  · rw [Document.previous, Document.next, hnode]
    exact ⟨rfl, rfl⟩

theorem exists_ofSubtrees {trees : List Subtree} (ht : ∀ tree ∈ trees, tree.Proper) :
    ∃ kids, Forest (ofSubtrees trees) kids := by
  have hinner : trees ≠ [] → (Document.empty.payload Document.root).mayHaveChildren := fun _ => rfl
  obtain ⟨kids, h, -⟩ := exists_graftBelow trees empty empty.root_lt rfl hinner ht
  exact ⟨kids, h⟩

/-- A document that is built from trees holds them below its document node. -/
theorem holdsBelow_ofSubtrees {trees : List Subtree} (ht : ∀ tree ∈ trees, tree.Proper) :
    (ofSubtrees trees).HoldsBelow root ((ofSubtrees trees).children root) trees := by
  have hinner : trees ≠ [] → (Document.empty.payload Document.root).mayHaveChildren := fun _ => rfl
  obtain ⟨kids, h, -, -, ids, hids, hholds, -⟩ :=
    exists_graftBelow trees empty empty.root_lt rfl hinner ht
  have hchildren : (ofSubtrees trees).children root = ids := (h.children_eq _).trans hids
  rw [hchildren]
  exact hholds

theorem proper_subtreeUpTo (h : Forest doc kids) (depth : Nat) :
    ∀ id, doc.payload id ≠ .document → (doc.subtreeUpTo depth id).Proper := by
  induction depth with
  | zero => exact fun id hid => .leaf hid
  | succ depth ih =>
    intro id hid
    refine .mk hid (fun hne => ?_) fun tree htree => ?_
    · by_contra hleaf
      rw [h.children_eq, h.leaf id (by simpa using hleaf)] at hne
      simp at hne
    · obtain ⟨child, hchild, rfl⟩ := List.mem_map.mp htree
      rw [h.children_eq, h.mem_kids] at hchild
      refine ih child fun hdocument => ?_
      simp [h.document child hdocument] at hchild

theorem proper_declaring {tree : Subtree} (ht : tree.Proper) (more : List Declaration) :
    (Document.Subtree.declaring more tree).Proper := by
  cases ht with
  | @mk payload children hp hc ht =>
    cases payload with
    | element e => exact .element ht
    | _ => exact .mk hp hc ht

theorem importTop_ok {source : Document} {id top : NodeId} (h : source.importTop id = .ok top) :
    source.payload top ≠ .document := by
  unfold Document.importTop at h
  split at h
  · simp at h
  · split at h
    · split at h
      · rename_i hroot
        have helement := List.find?_some hroot
        obtain rfl := Except.ok.inj h
        intro hp
        simp [Document.isElement, hp, Payload.isElement, Payload.element?] at helement
      · simp at h
    · rename_i hp
      obtain rfl := Except.ok.inj h
      exact hp

/-- What is copied from another document is a proper tree. -/
theorem proper_portableSubtree {source : Document} {sourceKids : NodeId → List NodeId}
    {id top : NodeId} (hs : Forest source sourceKids) (htop : source.importTop id = .ok top) :
    (source.portableSubtree top).Proper :=
  proper_declaring (hs.proper_subtreeUpTo source.size top (importTop_ok htop))
    (source.undeclared top)

/-- Copying from another document leaves what is there as it is. -/
theorem exists_importFrom {source new : Document} {sourceKids : NodeId → List NodeId}
    {id copy : NodeId} (h : Forest doc kids) (hs : Forest source sourceKids)
    (ho : doc.importFrom source id = .ok (new, copy)) : ∃ kids', Forest new kids' ∧
      Grown doc new ∧ ∀ x, x < doc.size → kids' x = kids x := by
  obtain ⟨top, htop, hgraft⟩ := importFrom_eq_ok.mp ho
  obtain ⟨kids', hnew, hgrown, hkids, -⟩ := exists_graft h (hs.proper_portableSubtree htop)
  rw [hgraft] at hnew hgrown
  exact ⟨kids', hnew, (grown_create doc _).trans hgrown, hkids⟩

end Forest

end MarkupQuery.Tree
