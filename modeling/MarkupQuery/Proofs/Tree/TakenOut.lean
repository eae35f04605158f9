import MarkupQuery.Proofs.Tree.Copies
import MarkupQuery.Proofs.Tree.Declared
import MarkupQuery.Proofs.Tree.Elementwise
import MarkupQuery.Proofs.Tree.WiderScopes

namespace MarkupQuery.Tree

open MarkupQuery.Xml

variable {known around : List Declaration}

def Element.undeclaring (e : Element) : Element := { e with declarations := [] }

def Document.undeclaring (doc : Document) : Document := doc.mapElements Element.undeclaring

theorem filter_not_repeats (known around ds : List Declaration) :
    ((ds.filter fun d => !repeats known around d).filter fun d => !known.contains d) =
      ds.filter fun d => !known.contains d := by
  rw [List.filter_filter]
  refine List.filter_congr fun d _ => ?_
  by_cases hmem : d ∈ known <;> simp [repeats, hmem]

namespace Subtree

mutual

theorem undeclaring_yielding (known : List Declaration) : ∀ (around : List Declaration)
    (tree : Subtree), (tree.yielding known around).mapElements Element.undeclaring =
      tree.mapElements Element.undeclaring
  | around, .mk payload children => by
    rw [yielding, mapElements, mapElements, undeclaring_yieldingAll known _ children]
    rw [Payload.mapElement_mapElement]
    rfl

theorem undeclaring_yieldingAll (known : List Declaration) : ∀ (around : List Declaration)
    (trees : List Subtree), mapAllElements Element.undeclaring (yieldingAll known around trees) =
      mapAllElements Element.undeclaring trees
  | _, [] => rfl
  | around, tree :: rest => by
    rw [yieldingAll, mapAllElements, mapAllElements, undeclaring_yielding known around tree,
      undeclaring_yieldingAll known around rest]

end

mutual

theorem elements_mapElements (f : Element → Element) : ∀ tree : Subtree,
    (tree.mapElements f).elements = tree.elements.map f
  | .mk payload children => by
    rw [mapElements, elements, elements, elements_mapAllElements f children, List.map_append,
      Payload.element?_mapElement, Option.toList_map]

theorem elements_mapAllElements (f : Element → Element) : ∀ trees : List Subtree,
    allElements (mapAllElements f trees) = (allElements trees).map f
  | [] => rfl
  | tree :: rest => by
    rw [mapAllElements, allElements, allElements, elements_mapElements f tree,
      elements_mapAllElements f rest, List.map_append]

end

/-- The names of a tree rely on the same declarations, whatever is declared. -/
theorem needed_yielding (known around : List Declaration) (tree : Subtree) :
    (tree.yielding known around).elements.flatMap Element.needed =
      tree.elements.flatMap Element.needed := by
  have hsame := congrArg (List.flatMap Element.needed)
    (congrArg elements (undeclaring_yielding known around tree))
  rw [elements_mapElements, elements_mapElements, List.flatMap_map, List.flatMap_map] at hsame
  exact hsame

mutual

theorem wantedDefault_yielding (hk : ArePrefixes known) : ∀ (around : List Declaration)
    (tree : Subtree), (tree.yielding known around).wantedDefault = tree.wantedDefault
  | around, .mk (.element e) children => by
    have hdeclares : (e.yielding known around).declaresDefault = e.declaresDefault := by
      rw [Bool.eq_iff_iff, Element.declaresDefault, Element.declaresDefault, List.any_eq_true,
        List.any_eq_true]
      refine exists_congr fun d => and_congr_left fun hnone => ?_
      have hd : d ∉ known := fun hmem => by
        simp [Option.isSome_iff_ne_none.mp (hk.qualifier d hmem)] at hnone
      simp [Element.yielding, repeats, hd]
    have hchildren := wantedDefaultOf_yieldingAll hk (e.declarations ++ around) children
    change wantedDefault (.mk (.element (e.yielding known around))
      (yieldingAll known (e.declarations ++ around) children)) = _
    rw [wantedDefault, wantedDefault, hdeclares, hchildren]
    rfl
  | around, .mk .document children => wantedDefaultOf_yieldingAll hk around children
  | around, .mk (.text _) children => wantedDefaultOf_yieldingAll hk around children
  | around, .mk (.comment _) children => wantedDefaultOf_yieldingAll hk around children
  | around, .mk (.instruction _ _) children => wantedDefaultOf_yieldingAll hk around children

theorem wantedDefaultOf_yieldingAll (hk : ArePrefixes known) : ∀ (around : List Declaration)
    (trees : List Subtree), wantedDefaultOf (yieldingAll known around trees) = wantedDefaultOf trees
  | _, [] => rfl
  | around, tree :: rest => by
    rw [yieldingAll, wantedDefaultOf, wantedDefaultOf, wantedDefault_yielding hk around tree,
      wantedDefaultOf_yieldingAll hk around rest]

end

theorem missingDefault_yielding (hk : ArePrefixes known) (around : List Declaration)
    (inherits : Bool) (tree : Subtree) :
    (tree.yielding known around).missingDefault inherits = tree.missingDefault inherits := by
  rw [missingDefault, missingDefault, wantedDefault_yielding hk]

def portable (tree : Subtree) : Subtree := Document.Subtree.declaring (tree.undeclared false) tree

/-- What the names in a tree rely on is declared in it or is in force around it. -/
theorem ScopedIn.declared_of_needed {tree : Subtree} {outer : List Declaration} {q u : String}
    (h : tree.ScopedIn outer) (hq : q ≠ "")
    (hn : ⟨some q, u⟩ ∈ tree.elements.flatMap Element.needed) :
    ⟨some q, u⟩ ∈ tree.elements.flatMap Element.declarations ∨ ⟨some q, u⟩ ∈ outer := by
  induction h with
  | @element outer inner e children he _ ih =>
    have hinner : ⟨some q, u⟩ ∈ inner → ⟨some q, u⟩ ∈ e.declarations ∨ ⟨some q, u⟩ ∈ outer := by
      intro hmem
      rw [he.declarations, List.mem_filter]
      by_cases hout : ⟨some q, u⟩ ∈ outer
      · exact .inr hout
      · exact .inl ⟨hmem, by simpa using hout⟩
    simp only [elements, Payload.element?, Option.toList_some, allElements_eq_flatMap,
      List.singleton_append, List.flatMap_cons, List.mem_append, List.flatMap_assoc,
      List.mem_flatMap (l := children)] at hn ⊢
    rcases hn with hown | ⟨tree, htree, hbelow⟩
    · exact (hinner (he.mem_of_needed (fun _ => hq) hown)).imp_left .inl
    · rcases ih tree htree hbelow with hdeclared | hmem
      · exact .inl (.inr ⟨tree, htree, hdeclared⟩)
      · exact (hinner hmem).imp_left .inl
  | @leaf outer payload hp =>
    cases payload with
    | element e => exact hp.elim
    | _ => simp [elements, allElements, Payload.element?] at hn

mutual

/-- A tree keeps what it declares but for known declarations. -/
theorem declared_yielding (known : List Declaration) : ∀ (around : List Declaration)
    (tree : Subtree), ((tree.yielding known around).elements.flatMap fun e =>
        e.declarations.filter fun d => !known.contains d) =
      tree.elements.flatMap fun e => e.declarations.filter fun d => !known.contains d
  | around, .mk payload children => by
    have hbelow := declared_yieldingAll known (payload.declarations ++ around) children
    rw [yielding, elements, elements, List.flatMap_append, List.flatMap_append, hbelow]
    congr 1
    cases payload with
    | element e =>
      have hkept : ((e.yielding known around).declarations.filter fun d => !known.contains d) =
          e.declarations.filter fun d => !known.contains d := filter_not_repeats ..
      simp only [Payload.mapElement, Payload.element?, Option.toList_some, List.flatMap_singleton,
        hkept]
    | _ => rfl

theorem declared_yieldingAll (known : List Declaration) : ∀ (around : List Declaration)
    (trees : List Subtree), ((allElements (yieldingAll known around trees)).flatMap fun e =>
        e.declarations.filter fun d => !known.contains d) =
      (allElements trees).flatMap fun e => e.declarations.filter fun d => !known.contains d
  | _, [] => rfl
  | around, tree :: rest => by
    rw [yieldingAll, allElements, allElements, List.flatMap_append, List.flatMap_append,
      declared_yielding known around tree, declared_yieldingAll known around rest]

end

/-- What is added is the same as far as the same is declared. -/
theorem filter_addMissing {p : Declaration → Bool} {declared declared' : List Declaration}
    (hsame : ∀ d, p d = true → (d ∈ declared' ↔ d ∈ declared)) (needed : List Declaration)
    {missing missing' : List Declaration} (hmissing : missing'.filter p = missing.filter p) :
    (Document.addMissing declared' missing' needed).filter p =
      (Document.addMissing declared missing needed).filter p := by
  induction needed generalizing missing missing' with
  | nil => exact hmissing
  | cons d needed ih =>
    unfold Document.addMissing
    by_cases hp : p d = true
    · have hmem : d ∈ missing' ↔ d ∈ missing := by
        simpa [List.mem_filter, hp] using (congrArg (d ∈ ·) hmissing).to_iff
      have hcond : (declared'.contains d || missing'.contains d) =
          (declared.contains d || missing.contains d) := by
        simp [hsame d hp, hmem]
      rw [hcond]
      split
      · exact ih hmissing
      · exact ih (by rw [List.filter_append, List.filter_append, hmissing])
    · split_ifs <;> exact ih (by simp [List.filter_append, hp, hmissing])

variable {tree : Subtree} {d : Declaration}

theorem declarations_yielding (known around : List Declaration) (tree : Subtree) :
    (tree.yielding known around).payload.declarations =
      tree.payload.declarations.filter fun d => !repeats known around d := by
  obtain ⟨payload, children⟩ := tree
  cases payload <;> rfl

theorem qualifier_of_mem_missingDefault {inherits : Bool} (h : d ∈ tree.missingDefault inherits) :
    d.qualifier = none := by
  unfold missingDefault at h
  split at h
  · cases h
  · split at h <;> simp_all

/-- What a tree lacks that was read where nothing is in force has none of these prefixes. -/
theorem binds_undeclared {tree : Subtree} (hk : ArePrefixes known) (h : tree.ScopedIn [])
    {d : Declaration} (hd : d ∈ known) : binds (tree.undeclared false) d.qualifier = false := by
  rw [← Bool.not_eq_true, binds_iff]
  rintro ⟨other, hother, heq⟩
  obtain ⟨q, hq⟩ := Option.isSome_iff_exists.mp (hk.qualifier d hd)
  have hname := ((hk.legible d hd).qualifier q hq).1
  obtain ⟨qualifier, u⟩ := other
  obtain rfl : qualifier = some q := heq.trans hq
  rcases List.mem_append.mp hother with hdefault | hmissing
  · simpa using qualifier_of_mem_missingDefault hdefault
  · simp only [mem_addMissing, List.not_mem_nil, false_or] at hmissing
    exact hmissing.2 ((h.declared_of_needed hname.ne_empty hmissing.1).resolve_right
      List.not_mem_nil)

/-- Of the declarations that are in force around a tree it has to declare, to stand alone, those that
its names rely on and that no element in it declares. -/
theorem mem_undeclared_yielding (hk : ArePrefixes known) (hd : d ∈ known) :
    d ∈ (tree.yielding known around).undeclared false ↔
      d ∈ tree.elements.flatMap Element.needed ∧
        d ∉ (tree.yielding known around).elements.flatMap Element.declarations := by
  have hdefault : d ∉ (tree.yielding known around).missingDefault false := fun hmem => by
    simpa [qualifier_of_mem_missingDefault hmem] using hk.qualifier d hd
  rw [undeclared, List.mem_append, or_iff_right hdefault, needed_yielding, mem_addMissing]
  simp only [List.not_mem_nil, false_or]

theorem nodup_undeclared_yielding (hk : ArePrefixes known) (around : List Declaration)
    (tree : Subtree) : (((tree.yielding known around).undeclared false).filter
      fun d => known.contains d).Nodup := by
  have hdefault : ((tree.yielding known around).missingDefault false).filter
      (fun d => known.contains d) = [] := List.filter_eq_nil_iff.mpr fun d hmem => by
    simpa using fun hd => by
      simpa [qualifier_of_mem_missingDefault hmem] using hk.qualifier d hd
  rw [undeclared, List.filter_append, hdefault, List.nil_append]
  exact (nodup_addMissing List.nodup_nil).filter _

theorem filter_undeclared_yielding (hk : ArePrefixes known) (around : List Declaration)
    (tree : Subtree) : ((tree.yielding known around).undeclared false).filter
        (fun d => !known.contains d) =
      (tree.undeclared false).filter fun d => !known.contains d := by
  rw [undeclared, undeclared, List.filter_append, List.filter_append, missingDefault_yielding hk,
    needed_yielding]
  congr 1
  refine filter_addMissing (fun d hd => ?_) _ rfl
  have hnot : d ∉ known := by simpa using hd
  have hkept := congrArg (d ∈ ·) (declared_yielding known around tree)
  simpa [List.mem_flatMap, List.mem_filter, hnot] using hkept.to_iff

/-- What stands alone stays the same but for its declarations. -/
theorem undeclaring_portable (tree : Subtree) : tree.portable.mapElements Element.undeclaring =
    tree.mapElements Element.undeclaring := by
  obtain ⟨payload, children⟩ := tree
  rw [portable]
  cases payload <;> rfl

theorem needed_portable (tree : Subtree) : tree.portable.elements.flatMap Element.needed =
    tree.elements.flatMap Element.needed := by
  obtain ⟨payload, children⟩ := tree
  rw [portable]
  cases payload <;> rfl

theorem Proper.portable (h : tree.Proper) : tree.portable.Proper := Forest.proper_declaring h _

end Subtree

namespace Document

def declaredAround (doc : Document) (id : NodeId) : List Declaration :=
  (doc.ancestors id).tail.flatMap doc.declarations

/-- Whether a name at `top` or below relies on a declaration. -/
def Relies (doc : Document) (top : NodeId) (d : Declaration) : Prop :=
  ∃ id ∈ doc.subtree top, ∃ e, doc.element? id = some e ∧ d ∈ e.needed

/-- `hinted` is `plain`, whose root element is `top`, as it is read where `known` is in force. Only
declarations differ. An element below the root leaves out those that repeat a known one. The root
element keeps those that are not known; of the known ones it declares none that no name relies on, and
each that a name relies on and no element below is left to declare. -/
structure ReadWithin (known : List Declaration) (plain hinted : Document) (top : NodeId) : Prop where
  same : hinted.undeclaring = plain.undeclaring
  below : ∀ id ∈ plain.descendants top, hinted.declarations id =
    (plain.declarations id).filter fun d => !repeats known (plain.declaredAround id) d
  others : ((hinted.declarations top).filter fun d => !known.contains d) =
    (plain.declarations top).filter fun d => !known.contains d
  once : ((hinted.declarations top).filter fun d => known.contains d).Nodup
  relied : ∀ d ∈ known, d ∈ hinted.declarations top → plain.Relies top d
  restored : ∀ d ∈ known, plain.Relies top d →
    (∀ id ∈ plain.descendants top, d ∉ hinted.declarations id) → d ∈ hinted.declarations top

variable {plain hinted : Document} {top id : NodeId}

theorem declaredAround_child (h : Forest plain plain.children) {parent : NodeId}
    (hp : plain.parent id = some parent) :
    plain.declaredAround id = plain.declarations parent ++ plain.declaredAround parent := by
  obtain ⟨rest, hrest⟩ := h.exists_ancestors parent
  rw [declaredAround, declaredAround, h.ancestors_eq hp, List.tail_cons, hrest,
    List.flatMap_cons, List.tail_cons]

theorem relies_iff (h : Forest plain plain.children) {d : Declaration} :
    plain.Relies top d ↔ d ∈ (plain.subtreeAt top).elements.flatMap Element.needed := by
  simp only [Relies, h.elements_subtreeAt, List.mem_flatMap, List.mem_filterMap]
  constructor
  · rintro ⟨id, hid, e, he, hd⟩
    exact ⟨e, ⟨id, hid, he⟩, hd⟩
  · rintro ⟨e, ⟨id, hid, he⟩, hd⟩
    exact ⟨id, hid, e, he, hd⟩

theorem declarations_of_subtreeAt (h : Forest plain plain.children) (id : NodeId) :
    plain.declarations id = (plain.subtreeAt id).payload.declarations := by
  rw [h.subtreeAt_eq]
  rfl

/-- If the trees below `top` yield, so does the tree of each node below. -/
theorem subtreeAt_below (h : Forest plain plain.children) (h' : Forest hinted hinted.children)
    (hsame : hinted.children = plain.children)
    (htop : ∀ child ∈ plain.children top, hinted.subtreeAt child =
      (plain.subtreeAt child).yielding known (plain.declaredAround child))
    (hid : id ∈ plain.descendants top) :
    hinted.subtreeAt id = (plain.subtreeAt id).yielding known (plain.declaredAround id) := by
  rw [h.descendants_eq, List.mem_flatMap] at hid
  obtain ⟨child, hchild, hid⟩ := hid
  have hwithin := h.mem_subtree.mp hid
  induction hwithin using Relation.ReflTransGen.head_induction_on with
  | refl => exact htop child hchild
  | @head id parent hp hw ih =>
    have hmem : id ∈ plain.children parent := (h.mem_kids id parent).mpr hp
    have hparent := ih (h.mem_subtree.mpr hw)
    rw [h'.subtreeAt_eq, h.subtreeAt_eq, Subtree.yielding_mk, Subtree.mk.injEq, hsame,
      List.map_map, List.map_inj_left] at hparent
    rw [declaredAround_child h hp]
    exact hparent.2 id hmem

/-- A tree in which nothing repeats a known declaration stays as it is. -/
theorem yielding_eq_self (h : Forest plain plain.children)
    (hnone : ∀ x ∈ plain.subtree id, ∀ d ∈ plain.declarations x,
      repeats known (plain.declaredAround x) d = false) :
    (plain.subtreeAt id).yielding known (plain.declaredAround id) = plain.subtreeAt id := by
  induction id using h.induction_below with
  | step id ih =>
    rw [h.subtreeAt_eq, Subtree.yielding_mk, List.map_map]
    congr 1
    · have hself := hnone id List.mem_cons_self
      rw [declarations, element?] at hself
      cases hpayload : plain.payload id with
      | element e =>
        rw [hpayload] at hself
        have hkept : (e.declarations.filter fun d => !repeats known (plain.declaredAround id) d) =
            e.declarations := List.filter_eq_self.mpr fun d hd => by simp [hself d hd]
        simp [Payload.mapElement, Element.yielding, hkept]
      | _ => rfl
    · refine List.map_congr_left fun child hchild => ?_
      have hbelow : ∀ x ∈ plain.subtree child, x ∈ plain.subtree id := fun x hx => by
        rw [h.subtree_eq]
        exact List.mem_cons_of_mem _ (List.mem_flatMap.mpr ⟨child, hchild, hx⟩)
      have hyields := ih child hchild fun x hx => hnone x (hbelow x hx)
      rwa [declaredAround_child h ((h.mem_kids child id).mp hchild)] at hyields

end Document

namespace Forest

open Document

variable {doc : Document} {kids : NodeId → List NodeId}

theorem isElement_subtreeAt (h : Forest doc kids) (id : NodeId) :
    (doc.subtreeAt id).payload.isElement = doc.isElement id := by
  rw [h.subtreeAt_eq]
  rfl

/-- The first of the trees, if its top is an element, is that of the root element. -/
theorem rootElement?_ofSubtrees {tree : Subtree} {rest : List Subtree}
    (hel : tree.payload.isElement) (ht : ∀ other ∈ tree :: rest, other.Proper) :
    ∃ top, (ofSubtrees (tree :: rest)).rootElement? = some top ∧
      (ofSubtrees (tree :: rest)).parent top = some root ∧
      (ofSubtrees (tree :: rest)).subtreeAt top = tree := by
  obtain ⟨kids, hk⟩ := exists_ofSubtrees ht
  have hf := hk.self
  have htrees := map_subtreeAt_of_holdsBelow (holdsBelow_ofSubtrees ht)
  obtain ⟨top, ids, hids, htop, -⟩ := List.map_eq_cons_iff.mp htrees
  refine ⟨top, ?_, (hf.mem_kids top root).mp (by simp [hids]), htop⟩
  rw [rootElement?, hids]
  exact List.find?_cons_of_pos (by rwa [← hf.isElement_subtreeAt, htop])

end Forest

namespace Document

variable {plain hinted : Document} {top : NodeId}

/-- A tree that stands alone in `plain`, and in `hinted` as it is read where `known` is in force. -/
structure StandsAlone (known : List Declaration) (tree : Subtree) (plain hinted : Document)
    (top : NodeId) : Prop where
  forest : Forest plain plain.children
  forest' : Forest hinted hinted.children
  parent_eq : plain.parent top = some root
  tree_eq : plain.subtreeAt top = tree.portable
  tree_eq' : hinted.subtreeAt top = (tree.yielding known []).portable
  same : hinted.undeclaring = plain.undeclaring

theorem exists_standsAlone {tree : Subtree} (ht : tree.Proper)
    (ht' : (tree.yielding known []).Proper) (hel : tree.portable.payload.isElement)
    (hel' : (tree.yielding known []).portable.payload.isElement) :
    ∃ top, (ofSubtrees [tree.portable]).rootElement? = some top ∧
      StandsAlone known tree (ofSubtrees [tree.portable])
        (ofSubtrees [(tree.yielding known []).portable]) top := by
  have hproper : ∀ other ∈ [tree.portable], other.Proper := by simpa using ht.portable
  have hproper' : ∀ other ∈ [(tree.yielding known []).portable], other.Proper := by
    simpa using ht'.portable
  obtain ⟨kids, hk⟩ := Forest.exists_ofSubtrees hproper
  obtain ⟨kids', hk'⟩ := Forest.exists_ofSubtrees hproper'
  have hsame : (ofSubtrees [(tree.yielding known []).portable]).undeclaring =
      (ofSubtrees [tree.portable]).undeclaring := by
    rw [undeclaring, undeclaring, mapElements_ofSubtrees, mapElements_ofSubtrees, List.map_singleton,
      List.map_singleton, Subtree.undeclaring_portable, Subtree.undeclaring_portable,
      Subtree.undeclaring_yielding]
  obtain ⟨top, hroot, hparent, htree⟩ := Forest.rootElement?_ofSubtrees hel hproper
  obtain ⟨top', hroot', -, htree'⟩ := Forest.rootElement?_ofSubtrees hel' hproper'
  have htops : top' = top := by
    have hroots := congrArg rootElement? hsame
    rw [undeclaring, undeclaring, rootElement?_mapElements, rootElement?_mapElements, hroot,
      hroot'] at hroots
    exact Option.some.inj hroots
  exact ⟨top, hroot, hk.self, hk'.self, hparent, htree, htops ▸ htree', hsame⟩

namespace StandsAlone

variable {e : Element} {trees : List Subtree}

theorem children_eq {tree : Subtree} (h : StandsAlone known tree plain hinted top) :
    hinted.children = plain.children := by
  have hchildren := congrArg children h.same
  rwa [undeclaring, undeclaring, children_mapElements, children_mapElements] at hchildren

theorem declarations_eq (h : StandsAlone known (.mk (.element e) trees) plain hinted top) :
    plain.declarations top = e.declarations ++ (Subtree.mk (.element e) trees).undeclared false := by
  rw [declarations_of_subtreeAt h.forest, h.tree_eq]
  rfl

theorem declarations_eq' (h : StandsAlone known (.mk (.element e) trees) plain hinted top) :
    hinted.declarations top = (e.declarations.filter fun d => !repeats known [] d) ++
      ((Subtree.mk (.element e) trees).yielding known []).undeclared false := by
  rw [declarations_of_subtreeAt h.forest', h.tree_eq']
  rfl

theorem declaredAround_top {tree : Subtree} (h : StandsAlone known tree plain hinted top) :
    plain.declaredAround top = [] := by
  have hnone : plain.declarations root = [] := by
    rw [declarations, element?, h.forest.root_payload]
    rfl
  rw [declaredAround, h.forest.ancestors_eq h.parent_eq, h.forest.ancestors_top h.forest.parent_root]
  simp [hnone]

theorem relies_iff (h : StandsAlone known tree plain hinted top) {d : Declaration} :
    plain.Relies top d ↔ d ∈ tree.elements.flatMap Element.needed := by
  rw [Document.relies_iff h.forest, h.tree_eq, Subtree.needed_portable]

/-- The trees below the top yield. -/
theorem subtreeAt_child (h : StandsAlone known (.mk (.element e) trees) plain hinted top)
    (hk : ArePrefixes known) (ht : (Subtree.mk (.element e) trees).ScopedIn []) {child : NodeId}
    (hchild : child ∈ plain.children top) : hinted.subtreeAt child =
      (plain.subtreeAt child).yielding known (plain.declaredAround child) := by
  have htree := h.tree_eq
  have htree' := h.tree_eq'
  rw [h.forest.subtreeAt_eq] at htree
  rw [h.forest'.subtreeAt_eq, h.children_eq, Subtree.yielding_mk] at htree'
  have htrees : (plain.children top).map plain.subtreeAt = trees := (Subtree.mk.inj htree).2
  have htrees' : (plain.children top).map hinted.subtreeAt =
      trees.map (Subtree.yielding known (e.declarations ++ [])) := (Subtree.mk.inj htree').2
  rw [← htrees, List.map_map, List.map_inj_left] at htrees'
  rw [htrees' child hchild, declaredAround_child h.forest ((h.forest.mem_kids child top).mp hchild),
    h.declaredAround_top, h.declarations_eq]
  refine Subtree.yielding_congr (fun d hd => ?_) _
  simp [Subtree.binds_undeclared hk ht hd]

theorem subtreeAt_descendant (h : StandsAlone known (.mk (.element e) trees) plain hinted top)
    (hk : ArePrefixes known) (ht : (Subtree.mk (.element e) trees).ScopedIn []) {id : NodeId}
    (hid : id ∈ plain.descendants top) : hinted.subtreeAt id =
      (plain.subtreeAt id).yielding known (plain.declaredAround id) :=
  subtreeAt_below h.forest h.forest' h.children_eq (fun _ => h.subtreeAt_child hk ht) hid

/-- What the elements below the top declare, as the trees and as the nodes tell it. -/
theorem declared_below (h : StandsAlone known (.mk (.element e) trees) plain hinted top)
    {d : Declaration} : d ∈ ((Subtree.mk (.element e) trees).yielding known []).elements.flatMap
        Element.declarations ↔ d ∈ e.declarations.filter (fun d => !repeats known [] d) ∨
      ∃ id ∈ plain.descendants top, d ∈ hinted.declarations id := by
  have hdescendants : hinted.descendants = plain.descendants := by
    have hwalks := congrArg descendants h.same
    rwa [undeclaring, undeclaring, descendants_mapElements, descendants_mapElements] at hwalks
  have hbelow : Subtree.allElements (Subtree.yieldingAll known (e.declarations ++ []) trees) =
      (plain.descendants top).filterMap hinted.element? := by
    have helements := h.forest'.elements_subtreeAt top
    have htop : hinted.element? top = (hinted.subtreeAt top).payload.element? := by
      rw [h.forest'.subtreeAt_eq]
      rfl
    rw [subtree, List.filterMap_cons, htop, h.tree_eq', hdescendants] at helements
    exact (List.cons.inj helements).2
  have hsplit : ((Subtree.mk (.element e) trees).yielding known []).elements =
      e.yielding known [] ::
        Subtree.allElements (Subtree.yieldingAll known (e.declarations ++ []) trees) := rfl
  rw [hsplit, List.flatMap_cons, List.mem_append, hbelow]
  refine or_congr_right ?_
  simp only [List.mem_flatMap, List.mem_filterMap, mem_declarations]
  constructor
  · rintro ⟨x, ⟨id, hid, hx⟩, hd⟩
    exact ⟨id, hid, x, hx, hd⟩
  · rintro ⟨id, hid, x, hx, hd⟩
    exact ⟨x, ⟨id, hid, hx⟩, hd⟩

theorem readWithin (h : StandsAlone known (.mk (.element e) trees) plain hinted top)
    (hk : ArePrefixes known) (ht : (Subtree.mk (.element e) trees).ScopedIn []) :
    ReadWithin known plain hinted top where
  same := h.same
  below id hid := by
    rw [declarations_of_subtreeAt h.forest', h.subtreeAt_descendant hk ht hid,
      declarations_of_subtreeAt h.forest, Subtree.declarations_yielding]
  others := by
    rw [h.declarations_eq, h.declarations_eq', List.filter_append, List.filter_append,
      Subtree.filter_undeclared_yielding hk, filter_not_repeats]
  once := by
    have hnone : ((e.declarations.filter fun d => !repeats known [] d).filter
        fun d => known.contains d) = [] := by
      rw [List.filter_filter]
      refine List.filter_eq_nil_iff.mpr fun d _ => ?_
      simp +contextual [repeats]
    rw [h.declarations_eq', List.filter_append, hnone, List.nil_append]
    exact Subtree.nodup_undeclared_yielding hk _ _
  relied d hd hmem := by
    rw [h.declarations_eq', List.mem_append, List.mem_filter] at hmem
    rcases hmem with ⟨-, hkept⟩ | hmissing
    · simp [repeats, hd] at hkept
    · exact h.relies_iff.mpr ((Subtree.mem_undeclared_yielding hk hd).mp hmissing).1
  restored d hd hrelies hnone := by
    rw [h.declarations_eq', List.mem_append]
    refine .inr ((Subtree.mem_undeclared_yielding hk hd).mpr ⟨h.relies_iff.mp hrelies, ?_⟩)
    rw [h.declared_below]
    rintro (hown | ⟨id, hid, hmem⟩)
    · simp [repeats, hd] at hown
    · exact hnone id hid hmem

/-- Where nothing repeats a known declaration nothing changes. -/
theorem eq_of_no_repeats (h : StandsAlone known (.mk (.element e) trees) plain hinted top)
    (hk : ArePrefixes known) (ht : (Subtree.mk (.element e) trees).ScopedIn [])
    (hnone : ∀ id ∈ plain.subtree top, ∀ d ∈ plain.declarations id,
      repeats known (plain.declaredAround id) d = false) :
    (Subtree.mk (.element e) trees).yielding known [] = .mk (.element e) trees := by
  have hself := yielding_eq_self h.forest hnone
  rw [h.declaredAround_top, h.tree_eq, Subtree.portable, Document.Subtree.declaring,
    Subtree.yielding_mk, Subtree.mk.injEq] at hself
  obtain ⟨hpayload, htrees⟩ := hself
  have hkept : ∀ d ∈ e.declarations, repeats known [] d = false := by
    intro d hd
    have hkeep := List.filter_eq_self.mp
      (congrArg Element.declarations (Payload.element.inj hpayload)) d (List.mem_append_left _ hd)
    simpa using hkeep
  rw [Subtree.yielding_mk, Subtree.mk.injEq]
  constructor
  · have hdeclarations : (e.declarations.filter fun d => !repeats known [] d) = e.declarations :=
      List.filter_eq_self.mpr fun d hd => by simp [hkept d hd]
    simp [Payload.mapElement, Element.yielding, hdeclarations]
  · refine Eq.trans (List.map_congr_left fun child _ => ?_) htrees
    refine Subtree.yielding_congr (fun d hd => ?_) child
    simp [Payload.declarations, Payload.element?, Subtree.binds_undeclared hk ht hd]

end StandsAlone

end Document

end MarkupQuery.Tree
