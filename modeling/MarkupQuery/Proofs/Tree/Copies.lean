import MarkupQuery.Proofs.Tree.Atomicity
import MarkupQuery.Proofs.Tree.Extended

namespace MarkupQuery.Tree

open Document

namespace Document

mutual

def plant (doc : Document) : Subtree → Except Error (Document × NodeId)
  | .mk payload children => do
    let new ← (doc.create payload).1.plantBelow (doc.create payload).2 children
    pure (new, (doc.create payload).2)

def plantBelow (doc : Document) (parent : NodeId) : List Subtree → Except Error Document
  | [] => .ok doc
  | tree :: rest => do
    let (new, child) ← doc.plant tree
    let new ← new.append parent child
    new.plantBelow parent rest

end

/-- Copies a node of another document, and then declares on the copy what it lacks. -/
def copyFrom (doc source : Document) (id : NodeId) : Except Error (Document × NodeId) := do
  let top ← source.importTop id
  let (new, copy) ← doc.plant (source.subtreeAt top)
  pure (new.updateElement copy fun e =>
    { e with declarations := e.declarations ++ source.undeclared top }, copy)

variable {doc : Document} {f : Element → Element} {id parent child : NodeId}

/-- Changes of nodes that can be made to one node in either order can be made to any two. -/
theorem update_comm {f g : Node → Node} (hc : ∀ n, f (g n) = g (f n)) (doc : Document)
    (id other : NodeId) : (doc.update id f).update other g = (doc.update other g).update id f := by
  simp only [update, mk.injEq]
  refine Array.ext_getElem? fun x => ?_
  simp only [Array.getElem?_modify]
  split_ifs <;> cases doc.nodes[x]? <;> simp [hc]

/-- What an element holds can be changed before links are changed or after. -/
theorem updateElement_update {g : Node → Node}
    (hg : ∀ n payload, g { n with payload } = { g n with payload }) (doc : Document)
    (id other : NodeId) :
    (doc.updateElement id f).update other g = (doc.update other g).updateElement id f := by
  have hpayload : ∀ n, (g n).payload = n.payload := fun n =>
    (congrArg Node.payload (hg n n.payload) :)
  refine update_comm (fun n => ?_) doc id other
  rw [hpayload]
  cases n.payload with
  | element e => exact (hg n _).symm
  | _ => rfl

theorem lastChild_updateElement (doc : Document) (id other : NodeId) :
    (doc.updateElement id f).lastChild other = doc.lastChild other :=
  congrFun (sameLinks_updateElement doc id f).lastChild_eq other

theorem updateElement_linkLast (doc : Document) (id parent child : NodeId) :
    (doc.updateElement id f).linkLast parent child =
      (doc.linkLast parent child).updateElement id f := by
  unfold linkLast
  rw [lastChild_updateElement]
  dsimp only
  split
  all_goals
    rw [updateElement_update, updateElement_update, updateElement_update] <;> exact fun _ _ => rfl

theorem updateElement_create (hid : id < doc.size) (payload : Payload) :
    ((doc.updateElement id f).create payload).1 = (doc.create payload).1.updateElement id f := by
  refine ext_node (by simp) fun x => ?_
  rw [node_create, node_updateElement, node_updateElement, payload_create, node_create,
    size_updateElement]
  by_cases hx : x = doc.size
  · simp [hx, Nat.ne_of_gt hid]
  · simp [hx]

theorem create_mapElement (doc : Document) (payload : Payload) :
    (doc.create (payload.mapElement f)).1 = (doc.create payload).1.updateElement doc.size f := by
  refine ext_node (by simp) fun x => ?_
  rw [node_create, node_updateElement, payload_create, node_create]
  by_cases hx : x = doc.size
  · simp [hx]
  · simp [hx, Document.payload]

mutual

/-- Grafting leaves room for a change of an element that was there before. -/
theorem updateElement_graft : ∀ (tree : Subtree) {doc : Document}, id < doc.size →
    ((doc.updateElement id f).graft tree).1 = (doc.graft tree).1.updateElement id f ∧
      id < (doc.graft tree).1.size
  | .mk payload children, doc, hid => by
    have hlater : id < (doc.create payload).1.size := by
      rw [size_create]
      exact Nat.lt_succ_of_lt hid
    have hbelow := updateElement_graftBelow children doc.size hlater
    rw [← updateElement_create hid] at hbelow
    refine ⟨?_, hbelow.2⟩
    rw [graft]
    exact (congrArg (graftBelow _ · children) (size_updateElement ..)).trans hbelow.1

theorem updateElement_graftBelow : ∀ (trees : List Subtree) (parent : NodeId) {doc : Document},
    id < doc.size → (doc.updateElement id f).graftBelow parent trees =
      (doc.graftBelow parent trees).updateElement id f ∧ id < (doc.graftBelow parent trees).size
  | [], _, _, hid => ⟨rfl, hid⟩
  | tree :: rest, parent, doc, hid => by
    obtain ⟨htree, hsize⟩ := updateElement_graft tree hid
    have hlinked : id < ((doc.graft tree).1.linkLast parent doc.size).size := by simpa using hsize
    have hrest := updateElement_graftBelow rest parent hlinked
    rw [← updateElement_linkLast, ← htree] at hrest
    simpa [graftBelow, graft_snd] using hrest

end

/-- It does not matter whether the top of a tree is given declarations before it is grafted or
after. -/
theorem graft_declaring (doc : Document) (tree : Subtree) (more : List Declaration) :
    doc.graft (Subtree.declaring more tree) = ((doc.graft tree).1.updateElement doc.size fun e =>
      { e with declarations := e.declarations ++ more }, doc.size) := by
  obtain ⟨payload, children⟩ := tree
  have hlater : doc.size < (doc.create payload).1.size := by simp
  refine Prod.ext ?_ (graft_snd _ _)
  have hbelow := updateElement_graftBelow children doc.size hlater
    (f := fun e => { e with declarations := e.declarations ++ more })
  rw [← create_mapElement] at hbelow
  cases payload <;> exact hbelow.1

/-- A free node that may be put below another is linked there, with nothing to unlink. -/
theorem append_free (hfree : doc.parent child = none)
    (hcheck : doc.checkInsertion parent child = .ok ()) :
    doc.append parent child = .ok (doc.linkLast parent child) := by
  rw [Document.append, hcheck, detach, hfree]
  rfl

end Document

namespace Forest

open Document

mutual

/-- A proper tree is copied without any move being refused. -/
theorem plant_eq : ∀ {tree : Subtree} {doc : Document} {kids : NodeId → List NodeId},
    Forest doc kids → tree.Proper → doc.plant tree = .ok (doc.graft tree)
  | .mk payload children, doc, kids, h, .mk _ hc ht => by
    have hfree : (doc.create payload).1.parent doc.size = none := by
      rw [parent_create, if_pos rfl]
    have hinner : children ≠ [] → ((doc.create payload).1.payload doc.size).mayHaveChildren := by
      rw [payload_create, if_pos rfl]
      exact hc
    have hbelow := plantBelow_eq children (h.create payload) (by simp) hfree hinner ht
    change ((doc.create payload).1.plantBelow doc.size children >>= fun new => _) = _
    rw [hbelow]
    rfl

theorem plantBelow_eq : ∀ (trees : List Subtree) {doc : Document} {kids : NodeId → List NodeId}
    {parent : NodeId}, Forest doc kids → parent < doc.size → doc.parent parent = none →
    (trees ≠ [] → (doc.payload parent).mayHaveChildren) → (∀ tree ∈ trees, tree.Proper) →
    doc.plantBelow parent trees = .ok (doc.graftBelow parent trees)
  | [], _, _, _, _, _, _, _, _ => rfl
  | tree :: rest, doc, kids, parent, h, hp, hfree, hinner, ht => by
    have hproper := ht tree (by simp)
    obtain ⟨kids', hnew, hgrown, -⟩ := exists_graft h hproper
    have hplanted := planted hproper hp hfree (hinner (by simp)) hnew hgrown
    -- the child is new and `parent` has no parent, so nothing bars the move and nothing is unlinked
    have hrest := plantBelow_eq rest hplanted.forest (by simpa using hplanted.parent_lt)
      (by rw [hplanted.grown.parent_eq _ hp, hfree])
      (fun _ => by rw [hplanted.grown.payload_eq _ hp]; exact hinner (by simp))
      fun t htr => ht t (by simp [htr])
    simp only [plantBelow, plant_eq h hproper, graftBelow, graft_snd, bind, Except.bind,
      append_free hplanted.free hplanted.check, hrest]

end

/-- Copying node by node comes to the same as grafting, and fails for the same nodes. -/
theorem copyFrom_eq {doc source : Document} {kids sourceKids : NodeId → List NodeId}
    (h : Forest doc kids) (hs : Forest source sourceKids) (id : NodeId) :
    doc.copyFrom source id = doc.importFrom source id := by
  unfold copyFrom Document.importFrom
  cases htop : source.importTop id with
  | error e => rfl
  | ok top =>
    have hproper : (source.subtreeAt top).Proper :=
      hs.proper_subtreeUpTo source.size top (importTop_ok htop)
    simp only [bind, Except.bind, pure, Except.pure, h.plant_eq hproper, portableSubtree,
      graft_declaring, graft_snd]

end Forest

namespace Document

/-- Where a node of the tree at `top` has its copy if the copies of the tree begin at `copy`: as far
behind it as the walk comes to the node after `top`. -/
def copyPlace (source : Document) (top copy id : NodeId) : NodeId :=
  copy + (source.subtree top).idxOf id

/-- `new` is `doc` with a copy of the tree that is at `top` of `source`. -/
structure Copied (doc source new : Document) (top copy : NodeId) : Prop where
  copy_eq : copy = doc.size
  size_eq : new.size = doc.size + (source.subtree top).length
  parent_eq : new.parent copy = none
  subtree_eq : new.subtree copy = (source.subtree top).map (source.copyPlace top copy)
  subtree_range : new.subtree copy = List.range' copy (source.subtree top).length
  children_eq : ∀ id ∈ source.subtree top, new.children (source.copyPlace top copy id) =
    (source.children id).map (source.copyPlace top copy)
  payload_eq : ∀ id ∈ source.subtree top, id ≠ top →
    new.payload (source.copyPlace top copy id) = source.payload id
  top_eq : new.payload copy = (source.payload top).mapElement fun e =>
    { e with declarations := e.declarations ++ source.undeclared top }
  node_eq : ∀ id, id < doc.size → new.node id = doc.node id

theorem importTop_eq_error {source : Document} {id : NodeId} : (∃ e, source.importTop id = .error e) ↔
    source.contains id = false ∨ (source.payload id = .document ∧
      ∀ child ∈ source.children root, source.isElement child = false) := by
  have hroot : source.rootElement? = none ↔
      ∀ child ∈ source.children root, source.isElement child = false := by
    simp [rootElement?]
  rw [← hroot]
  unfold Document.importTop
  cases source.contains id with
  | false => simp
  | true =>
    cases source.payload id <;> cases source.rootElement? <;> simp

theorem importTop_eq_ok {source : Document} {id top : NodeId} (h : source.importTop id = .ok top) :
    (source.payload id = .document → source.rootElement? = some top) ∧
      (source.payload id ≠ .document → top = id) := by
  unfold Document.importTop at h
  cases hc : source.contains id with
  | false => simp [hc] at h
  | true =>
    cases hp : source.payload id <;> cases hr : source.rootElement? <;> simp_all

end Document

theorem map_add_idxOf {ids : List NodeId} (h : ids.Nodup) (first : NodeId) :
    (ids.map fun id => first + ids.idxOf id) = List.range' first ids.length := by
  refine List.ext_getElem (by simp) fun i hi _ => ?_
  simp [h.idxOf_getElem]

namespace Forest

open Document

variable {doc source new : Document} {kids kids' : NodeId → List NodeId}

theorem flatMap_subtree_cons (h : Forest doc kids) (id : NodeId) (rest : List NodeId) :
    (id :: rest).flatMap doc.subtree = id :: (kids id ++ rest).flatMap doc.subtree := by
  rw [List.flatMap_cons, h.subtree_eq, List.flatMap_append, List.cons_append]

/-- Where the same trees stand in two documents, the walks are equally long. If the one is the image
of the other, so are the children of each node, and the payloads are the same. -/
theorem walks_alike (h : Forest source kids) (h' : Forest new kids') {walk ids others : List NodeId}
    (hwalk : ids.flatMap source.subtree = walk)
    (halike : others.map new.subtreeAt = ids.map source.subtreeAt) :
    (others.flatMap new.subtree).length = walk.length ∧
    ∀ place : NodeId → NodeId, others.flatMap new.subtree = walk.map place →
      others = ids.map place ∧ ∀ id ∈ walk,
        new.payload (place id) = source.payload id ∧ kids' (place id) = (kids id).map place := by
  -- the walk loses its first node, whose children take the place of it
  induction walk generalizing ids others with
  | nil =>
    cases ids with
    | nil => simp [List.map_eq_nil_iff.mp halike]
    | cons id rest => simp [h.flatMap_subtree_cons] at hwalk
  | cons first walk ih =>
    cases ids with
    | nil => simp at hwalk
    | cons id rest =>
      obtain ⟨other, rest', rfl⟩ : ∃ other rest', others = other :: rest' := by
        cases others with
        | nil => simp at halike
        | cons other rest' => exact ⟨other, rest', rfl⟩
      rw [h.flatMap_subtree_cons, List.cons.injEq] at hwalk
      obtain ⟨rfl, hwalk⟩ := hwalk
      rw [List.map_cons, List.map_cons, List.cons.injEq, h.subtreeAt_eq, h'.subtreeAt_eq,
        Subtree.mk.injEq] at halike
      obtain ⟨⟨hpayload, hkids⟩, hrest⟩ := halike
      have hlength : (kids' other).length = (kids id).length := by
        simpa using congrArg List.length hkids
      have hbelow : (kids' other ++ rest').map new.subtreeAt =
          (kids id ++ rest).map source.subtreeAt := by
        simp [hkids, hrest]
      obtain ⟨hsize, hplaces⟩ := ih hwalk hbelow
      rw [h'.flatMap_subtree_cons]
      refine ⟨by rw [List.length_cons, hsize, List.length_cons], fun place hplace => ?_⟩
      rw [List.map_cons, List.cons.injEq] at hplace
      obtain ⟨rfl, hplace⟩ := hplace
      obtain ⟨hids, hnodes⟩ := hplaces place hplace
      rw [List.map_append] at hids
      obtain ⟨hkids', hrest'⟩ := List.append_inj hids (by simpa using hlength)
      exact ⟨by rw [List.map_cons, hrest'], List.forall_mem_cons.mpr ⟨⟨hpayload, hkids'⟩, hnodes⟩⟩

theorem portableSubtree_eq (hs : Forest source kids) (top : NodeId) :
    source.portableSubtree top = .mk ((source.payload top).mapElement fun e =>
      { e with declarations := e.declarations ++ source.undeclared top })
      ((kids top).map source.subtreeAt) := by
  rw [portableSubtree, hs.subtreeAt_eq]
  cases source.payload top <;> rfl

/-- What is copied from another document is a copy there. -/
theorem copied_of_importFrom (h : Forest doc doc.children) (hs : Forest source source.children)
    {id copy : NodeId} (ho : doc.importFrom source id = .ok (new, copy)) :
    ∃ top, source.importTop id = .ok top ∧ Copied doc source new top copy := by
  have hextended := extended_importFrom h hs ho
  obtain ⟨top, htop, hgraft⟩ := importFrom_eq_ok.mp ho
  obtain ⟨kids', hnew, hgrown, -, hholds, hrange⟩ :=
    h.exists_graft (hs.proper_portableSubtree htop)
  obtain rfl : doc.size = copy := (graft_snd doc _).symm.trans (congrArg Prod.snd hgraft)
  rw [hgraft] at hnew hgrown hholds hrange
  -- the trees at the children of the two tops are the same
  have htree := subtreeAt_of_holds hholds
  rw [hnew.subtreeAt_eq, hs.portableSubtree_eq, Subtree.mk.injEq] at htree
  obtain ⟨hpayload, hkids⟩ := htree
  obtain ⟨hlength, hplaces⟩ := hs.walks_alike hnew rfl hkids
  -- so as many nodes are new as there are to copy, and each is where its place says
  have hsize : new.size - doc.size = (source.subtree top).length := by
    rw [hs.subtree_eq, List.length_cons, ← hlength, ← List.length_cons, ← hnew.subtree_eq, hrange,
      List.length_range']
  rw [hsize] at hrange
  have hplace : new.subtree doc.size = (source.subtree top).map (source.copyPlace top doc.size) :=
    hrange.trans (map_add_idxOf (hs.nodup_subtree top) doc.size).symm
  have hcut := hplace
  rw [hnew.subtree_eq, hs.subtree_eq, List.map_cons, List.cons.injEq] at hcut
  obtain ⟨htop', hbelow⟩ := hcut
  obtain ⟨hchildren, hnodes⟩ := hplaces _ hbelow
  refine ⟨top, htop, {
    copy_eq := rfl, size_eq := ?_, parent_eq := ?_, subtree_eq := hplace, subtree_range := hrange
    children_eq := fun x hx => ?_, payload_eq := fun x hx hne => ?_, top_eq := hpayload
    node_eq := fun x hx => hextended.node_eq h hnew.self hx }⟩
  · have hle := hextended.grown.size_le
    omega
  · rw [hgrown.parent_eq _ (by simp), parent_create, if_pos rfl]
  · rw [hnew.children_eq]
    rw [hs.subtree_eq] at hx
    rcases List.mem_cons.mp hx with rfl | hx
    · rw [← htop']
      exact hchildren
    · exact (hnodes x hx).2
  · rw [hs.subtree_eq] at hx
    exact (hnodes x ((List.mem_cons.mp hx).resolve_left hne)).1

end Forest

/-- A node of a reachable document is copied into another one, node by node, unless the document
does not have it or it is a document node and no element is below that of the document. For a
document node the root element is copied. The copy has no parent. Its nodes are new and stand one
after the other in the order of the walk, with the payloads and the children of those that they are
copies of; an element at the top declares also what it relied on. What was there before stays as it
was. -/
theorem Document.Reachable.importFrom_copies {doc source : Document} (hd : doc.Reachable)
    (hs : source.Reachable) (id : NodeId) :
    doc.copyFrom source id = doc.importFrom source id ∧
    ((∃ e, doc.importFrom source id = .error e) ↔ source.contains id = false ∨
      (source.payload id = .document ∧
        ∀ child ∈ source.children root, source.isElement child = false)) ∧
    ∀ new copy, doc.importFrom source id = .ok (new, copy) → ∃ top,
      (source.payload id = .document → source.rootElement? = some top) ∧
      (source.payload id ≠ .document → top = id) ∧ Copied doc source new top copy := by
  refine ⟨hd.forest.copyFrom_eq hs.forest id, ?_, fun new copy ho => ?_⟩
  · rw [← importTop_eq_error, Document.importFrom]
    cases source.importTop id <;> simp [bind, Except.bind, pure, Except.pure]
  · obtain ⟨top, htop, hcopied⟩ := hd.forest.copied_of_importFrom hs.forest ho
    obtain ⟨hdocument, hother⟩ := importTop_eq_ok htop
    exact ⟨top, hdocument, hother, hcopied⟩

def lender : Document := .ofMarkup "<r xmlns='u'><a k='1'>t<b/></a></r>"

def borrower : Document := .ofMarkup "<x><y/></x>"

/-- The inner element is copied with what is below it and declares the namespace itself. From a
document without elements nothing is copied. -/
theorem importFrom_copies_lender : borrower.Reachable ∧ lender.Reachable ∧
    (∃ new, borrower.importFrom lender 2 = .ok (new, 3) ∧ new.parent 3 = none ∧
      new.subtree 3 = [3, 4, 5] ∧ new.children 3 = [4, 5] ∧ new.payload 4 = .text "t" ∧
      new.declarations 3 = [⟨none, "u"⟩] ∧ new.node 2 = borrower.node 2) ∧
    ∃ e, borrower.importFrom .empty root = .error e := by
  have hvalues : (Document.parse "<x><y/></x>").isOk = true ∧
      (Document.parse "<r xmlns='u'><a k='1'>t<b/></a></r>").isOk = true ∧ borrower.size = 3 ∧
      lender.subtree 2 = [2, 3, 4] ∧ lender.children 2 = [3, 4] ∧ lender.payload 3 = .text "t" ∧
      lender.payload 2 = .element
        { name := "a", namespaceUri := some "u", attributes := [{ name := "k", value := "1" }] } ∧
      lender.undeclared 2 = [⟨none, "u"⟩] := by
    decide +kernel
  obtain ⟨hparse, hparse', hsize, hsubtree, hchildren, htext, helement, hundeclared⟩ := hvalues
  have hborrower : borrower.Reachable := .parse (Document.parse_ofMarkup hparse)
  have hlender : lender.Reachable := .parse (Document.parse_ofMarkup hparse')
  obtain ⟨new, ho, -⟩ := hborrower.forest.exists_importFrom_element hlender.forest
    (by rw [isElement, helement]; rfl : lender.isElement 2)
  obtain ⟨-, -, hcopies⟩ := Document.Reachable.importFrom_copies hborrower hlender 2
  obtain ⟨-, hrefused, -⟩ := Document.Reachable.importFrom_copies hborrower .empty root
  obtain ⟨top, -, htop, hcopied⟩ := hcopies new borrower.size ho
  obtain rfl := htop (by simp [helement])
  rw [hsize] at ho hcopied
  have hplaces : lender.copyPlace 2 3 2 = 3 ∧ lender.copyPlace 2 3 3 = 4 ∧
      lender.copyPlace 2 3 4 = 5 := by
    simp only [copyPlace, hsubtree]
    decide
  obtain ⟨h2, h3, h4⟩ := hplaces
  have hbelow : new.children 3 = [4, 5] := by
    have hat := hcopied.children_eq 2 (by simp [hsubtree])
    rwa [h2, hchildren, List.map_cons, List.map_cons, h3, h4] at hat
  have hleaf : new.payload 4 = .text "t" := by
    have hat := hcopied.payload_eq 3 (by simp [hsubtree]) (by decide)
    rwa [h3, htext] at hat
  have hrange : new.subtree 3 = [3, 4, 5] := by
    have hat := hcopied.subtree_range
    rwa [hsubtree] at hat
  have htopmost := hcopied.top_eq
  rw [helement, hundeclared] at htopmost
  have hempty : Document.empty.children root = [] := by decide +kernel
  refine ⟨hborrower, hlender, ⟨new, ho, hcopied.parent_eq, hrange, hbelow, hleaf, ?_,
    hcopied.node_eq 2 (hsize ▸ by decide)⟩, hrefused.mpr (.inr ⟨rfl, by simp [hempty]⟩)⟩
  rw [declarations, element?, htopmost]
  rfl

end MarkupQuery.Tree
