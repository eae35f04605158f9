import Mathlib.Data.List.Nodup
import Mathlib.Data.List.Perm.Subperm
import Mathlib.Logic.Relation
import MarkupQuery.Tree.Mutation
import MarkupQuery.Tree.Walk

namespace MarkupQuery.Tree

variable {link link' : NodeId → Option NodeId} {start stop : Option NodeId} {ids rest : List NodeId}

/-- Following `link` from `start` visits the given nodes and then arrives at `stop`. -/
def Leads (link : NodeId → Option NodeId) : Option NodeId → List NodeId → Option NodeId → Prop
  | start, [], stop => start = stop
  | start, id :: rest, stop => start = some id ∧ Leads link (link id) rest stop

theorem leads_append : Leads link start (ids ++ rest) stop ↔
    ∃ middle, Leads link start ids middle ∧ Leads link middle rest stop := by
  induction ids generalizing start with
  | nil => simp [Leads]
  | cons id ids ih => simp [Leads, ih, and_assoc]

theorem leads_none : Leads link none ids stop ↔ ids = [] ∧ stop = none := by
  cases ids with
  | nil => simp [Leads, eq_comm]
  | cons id ids => simp [Leads]

/-- A chain that ends starts at the head of its list. -/
theorem Leads.start_eq (h : Leads link start ids none) : start = ids.head? := by
  cases ids with
  | nil => exact h
  | cons id ids => exact h.1

theorem Leads.congr (h : Leads link start ids stop) (hl : ∀ id ∈ ids, link' id = link id) :
    Leads link' start ids stop := by
  induction ids generalizing start with
  | nil => exact h
  | cons id ids ih =>
    refine ⟨h.1, ?_⟩
    rw [hl id (by simp)]
    exact ih h.2 fun x hx => hl x (by simp [hx])

/-- A chain is redirected to another node by changing the link of its last node; an empty one by
starting there. -/
theorem Leads.redirect {target : Option NodeId} (h : Leads link start ids stop) (hn : ids.Nodup)
    (hl : ∀ id ∈ ids, link' id = if ids.getLast? = some id then target else link id) :
    Leads link' (if ids = [] then target else start) ids target := by
  induction ids generalizing start with
  | nil => simp [Leads]
  | cons id ids ih =>
    refine ⟨by simpa using h.1, ?_⟩
    rw [hl id (by simp)]
    obtain ⟨hid, hn⟩ := List.nodup_cons.mp hn
    cases ids with
    | nil => simp [Leads]
    | cons next ids =>
      have hlast : (next :: ids).getLast? ≠ some id := fun he => hid (List.mem_of_getLast? he)
      rw [List.getLast?_cons_cons, if_neg hlast]
      have hrest := ih h.2 hn fun x hx => by
        rw [hl x (by simp [hx]), List.getLast?_cons_cons]
      simpa using hrest

theorem Leads.unlink {id : NodeId} (h : Leads link start (ids ++ id :: rest) none)
    (hn : (ids ++ id :: rest).Nodup)
    (hl : ∀ x ∈ ids ++ rest, link' x = if ids.getLast? = some x then link id else link x) :
    Leads link' (if ids = [] then link id else start) (ids ++ rest) none := by
  obtain ⟨middle, hids, -, hrest⟩ := leads_append.mp h
  obtain ⟨hids', hrest', hdisjoint⟩ := List.nodup_append.mp hn
  refine leads_append.mpr ⟨link id, hids.redirect hids' fun x hx => ?_, hrest.congr fun x hx => ?_⟩
  · exact hl x (List.mem_append_left _ hx)
  · rw [hl x (List.mem_append_right _ hx), if_neg]
    intro hlast
    exact hdisjoint x (List.mem_of_getLast? hlast) x (List.mem_cons_of_mem _ hx) rfl

theorem Leads.insert {id : NodeId} (h : Leads link start (ids ++ rest) none)
    (hn : (ids ++ rest).Nodup) (hid : link' id = rest.head?)
    (hl : ∀ x ∈ ids ++ rest, link' x = if ids.getLast? = some x then some id else link x) :
    Leads link' (if ids = [] then some id else start) (ids ++ id :: rest) none := by
  obtain ⟨middle, hids, hrest⟩ := leads_append.mp h
  obtain ⟨hids', hrest', hdisjoint⟩ := List.nodup_append.mp hn
  refine leads_append.mpr ⟨some id, hids.redirect hids' fun x hx => ?_, rfl, ?_⟩
  · exact hl x (List.mem_append_left _ hx)
  · rw [hid, ← hrest.start_eq]
    refine hrest.congr fun x hx => ?_
    rw [hl x (List.mem_append_right _ hx), if_neg]
    intro hlast
    exact hdisjoint x (List.mem_of_getLast? hlast) x hx rfl

theorem Leads.eq_of_same_start {ids' : List NodeId} (h : Leads link start ids none)
    (h' : Leads link start ids' none) : ids = ids' := by
  induction ids generalizing start ids' with
  | nil =>
    subst h
    exact (leads_none.mp h').1.symm
  | cons id ids ih =>
    obtain ⟨rfl, h⟩ := h
    cases ids' with
    | nil => simp [Leads] at h'
    | cons id' ids' =>
      obtain ⟨hid, h'⟩ := h'
      cases hid
      rw [ih h h']

/-- Everything behind a node of a chain can be reached from it. -/
theorem Leads.reaches {id : NodeId} (h : Leads link (link id) ids stop) {x : NodeId}
    (hx : x ∈ ids) : Relation.TransGen (fun a b => link a = some b) id x := by
  induction ids generalizing id with
  | nil => simp at hx
  | cons next ids ih =>
    obtain ⟨hnext, h⟩ := h
    rcases List.mem_cons.mp hx with rfl | hx
    · exact .single hnext
    · exact .head hnext (ih h hx)

theorem Leads.mem_of_reaches {id x : NodeId} (h : Leads link (link id) ids none)
    (hx : Relation.TransGen (fun a b => link a = some b) id x) : x ∈ ids := by
  induction hx using Relation.TransGen.head_induction_on generalizing ids with
  | single hnext =>
    rw [hnext] at h
    cases ids with
    | nil => simp [Leads] at h
    | cons next ids =>
      obtain ⟨he, -⟩ := h
      cases he
      exact List.mem_cons_self
  | head hnext _ ih =>
    rw [hnext] at h
    cases ids with
    | nil => simp [Leads] at h
    | cons next ids =>
      obtain ⟨he, h⟩ := h
      cases he
      exact List.mem_cons_of_mem _ (ih h)

/-- A link that never comes back to a node makes chains without repetition. -/
theorem Leads.nodup (h : Leads link start ids stop)
    (hc : ∀ id, ¬ Relation.TransGen (fun a b => link a = some b) id id) : ids.Nodup := by
  induction ids generalizing start with
  | nil => exact List.nodup_nil
  | cons id ids ih =>
    refine List.nodup_cons.mpr ⟨fun hid => hc id (h.2.reaches hid), ih h.2⟩

theorem leads_follow (link : NodeId → Option NodeId) (fuel : Nat) (start : Option NodeId) :
    ∃ stop, Leads link start (follow link fuel start) stop ∧
      (stop = none ∨ (follow link fuel start).length = fuel) := by
  induction fuel generalizing start with
  | zero => exact ⟨start, by simp [follow, Leads]⟩
  | succ fuel ih =>
    cases start with
    | none => exact ⟨none, by simp [follow, Leads]⟩
    | some id =>
      obtain ⟨stop, h, hs⟩ := ih (link id)
      exact ⟨stop, ⟨rfl, h⟩, hs.imp (fun hs => hs) fun hl => by simp [follow, hl]⟩

theorem follow_eq {fuel : Nat} (h : Leads link start ids none) (hf : ids.length ≤ fuel) :
    follow link fuel start = ids := by
  induction fuel generalizing start ids with
  | zero =>
    obtain rfl := List.eq_nil_of_length_eq_zero (Nat.le_zero.mp hf)
    rfl
  | succ fuel ih =>
    cases ids with
    | nil =>
      subst h
      rfl
    | cons id ids =>
      obtain ⟨rfl, h⟩ := h
      rw [follow, ih h (by simpa using hf)]

theorem length_le_of_nodup {bound : Nat} (hn : ids.Nodup) (hb : ∀ id ∈ ids, id < bound) :
    ids.length ≤ bound := by
  have hs : ids ⊆ List.range bound := fun id hid => List.mem_range.mpr (hb id hid)
  simpa using (hn.subperm hs).length_le

theorem Leads.link_isSome {next : NodeId} (h : Leads link start ids (some next)) {id : NodeId}
    (hid : id ∈ ids) : (link id).isSome := by
  induction ids generalizing start with
  | nil => simp at hid
  | cons x ids ih =>
    rcases List.mem_cons.mp hid with rfl | hid
    · cases ids with
      | nil => simp [show link id = some next from h.2]
      | cons y ids => simp [h.2.1]
    · exact ih h.2 hid

/-- Without cycles and between finitely many nodes, every chain ends. -/
theorem exists_leads_none {bound : Nat} (hb : ∀ a b, link a = some b → a < bound)
    (hc : ∀ id, ¬ Relation.TransGen (fun a b => link a = some b) id id) (start : Option NodeId) :
    ∃ ids, Leads link start ids none := by
  obtain ⟨stop, h, hs⟩ := leads_follow link (bound + 1) start
  cases stop with
  | none => exact ⟨_, h⟩
  | some next =>
    have hlength := hs.resolve_left (by simp)
    have hlt : ∀ id ∈ follow link (bound + 1) start, id < bound := by
      intro id hid
      obtain ⟨b, hlink⟩ := Option.isSome_iff_exists.mp (h.link_isSome hid)
      exact hb id b hlink
    have := length_le_of_nodup (h.nodup hc) hlt
    omega

end MarkupQuery.Tree

/-!
What the links of a document have to say so that it is a forest: every node has a list of children,
and the six links of a node agree with these lists.
-/

namespace MarkupQuery.Tree

namespace Document

def ChildOf (doc : Document) (child parent : NodeId) : Prop := doc.parent child = some parent

abbrev Within (doc : Document) (below above : NodeId) : Prop :=
  Relation.ReflTransGen doc.ChildOf below above

abbrev Below (doc : Document) (below above : NodeId) : Prop :=
  Relation.TransGen doc.ChildOf below above

end Document

/-- The links of `doc` describe a forest in which `kids` gives the children of every node. -/
structure Forest (doc : Document) (kids : NodeId → List NodeId) : Prop where
  /-- Parent links never lead back to where they start. -/
  acyclic : ∀ id, ¬ doc.Below id id
  /-- From the first child the links to next siblings visit the children and end. -/
  forward : ∀ id, Leads doc.next (doc.firstChild id) (kids id) none
  /-- From the last child the links to previous siblings visit them in the other direction. -/
  backward : ∀ id, Leads doc.previous (doc.lastChild id) (kids id).reverse none
  nodup : ∀ id, (kids id).Nodup
  mem_kids : ∀ child id, child ∈ kids id ↔ doc.parent child = some id
  orphan : ∀ id, doc.parent id = none → doc.previous id = none ∧ doc.next id = none
  document : ∀ id, doc.payload id = .document → doc.parent id = none
  leaf : ∀ id, (doc.payload id).mayHaveChildren = false → kids id = []
  child_lt : ∀ child id, doc.parent child = some id → child < doc.size
  root_lt : Document.root < doc.size
  root_payload : doc.payload Document.root = .document

namespace Document

theorem node_update_eq {doc : Document} {id : NodeId} (h : id < doc.size) (f : Node → Node)
    (x : NodeId) :
    (doc.update id f).node x = if x = id then f (doc.node x) else doc.node x := by
  rw [node_update _ _ _ _ h]
  by_cases hx : x = id <;> simp [hx]

theorem node_joinNeighbours {doc : Document} {parent : NodeId} {before after : Option NodeId}
    (hp : parent < doc.size) (hb : ∀ id ∈ before, id < doc.size) (ha : ∀ id ∈ after, id < doc.size)
    (x : NodeId) :
    (doc.joinNeighbours parent before after).node x = { doc.node x with
      next := if before = some x then after else doc.next x
      previous := if after = some x then before else doc.previous x
      firstChild := if before = none ∧ x = parent then after else doc.firstChild x
      lastChild := if after = none ∧ x = parent then before else doc.lastChild x } := by
  have hsome : ∀ id, (some id = some x) = (x = id) := by simp [eq_comm]
  unfold joinNeighbours
  cases before with
  | none =>
    cases after with
    | none =>
      dsimp only
      rw [node_update_eq (by simpa using hp), node_update_eq hp]
      simp only [reduceCtorEq, true_and, if_false]
      split_ifs <;> rfl
    | some a =>
      dsimp only
      rw [node_update_eq (by simpa using ha a rfl), node_update_eq hp]
      simp only [hsome, reduceCtorEq, true_and, false_and, if_false]
      split_ifs <;> rfl
  | some b =>
    cases after with
    | none =>
      dsimp only
      rw [node_update_eq (by simpa using hp), node_update_eq (hb b rfl)]
      simp only [hsome, reduceCtorEq, true_and, false_and, if_false]
      split_ifs <;> rfl
    | some a =>
      dsimp only
      rw [node_update_eq (by simpa using ha a rfl), node_update_eq (hb b rfl)]
      simp only [hsome, reduceCtorEq, false_and, if_false]
      split_ifs <;> rfl

theorem node_of_size_le {doc : Document} {id : NodeId} (h : doc.size ≤ id) :
    doc.node id = { payload := .document } := by
  have hs : doc.nodes.size ≤ id := h
  simp [node, Array.getD_eq_getD_getElem?, hs]

end Document

namespace Forest

variable {doc : Document} {kids : NodeId → List NodeId} {parent child id : NodeId}
  {before after : List NodeId}

theorem firstChild_eq (h : Forest doc kids) (id : NodeId) :
    doc.firstChild id = (kids id).head? := (h.forward id).start_eq

theorem lastChild_eq (h : Forest doc kids) (id : NodeId) :
    doc.lastChild id = (kids id).getLast? := by
  rw [(h.backward id).start_eq, List.head?_reverse]

theorem kids_of_size_le (h : Forest doc kids) (hid : doc.size ≤ id) : kids id = [] := by
  have hfirst := h.firstChild_eq id
  rw [Document.firstChild, Document.node_of_size_le hid] at hfirst
  exact List.head?_eq_none_iff.mp hfirst.symm

theorem parent_lt (h : Forest doc kids) (hp : doc.parent child = some parent) :
    parent < doc.size := by
  by_contra hlt
  have := (h.mem_kids child parent).mpr hp
  simp [h.kids_of_size_le (Nat.le_of_not_lt hlt)] at this

/-- The neighbours of a child are those in the list of children. -/
theorem siblings_eq (h : Forest doc kids) (hk : kids parent = before ++ child :: after) :
    doc.previous child = before.getLast? ∧ doc.next child = after.head? := by
  have hf := h.forward parent
  have hb := h.backward parent
  rw [hk] at hf hb
  rw [List.reverse_append, List.reverse_cons, List.append_assoc, List.singleton_append] at hb
  obtain ⟨_, -, -, hf⟩ := leads_append.mp hf
  obtain ⟨_, -, -, hb⟩ := leads_append.mp hb
  rw [hf.start_eq, hb.start_eq, List.head?_reverse]
  exact ⟨rfl, rfl⟩

theorem exists_split (h : Forest doc kids) (hp : doc.parent child = some parent) :
    ∃ before after, kids parent = before ++ child :: after :=
  List.append_of_mem ((h.mem_kids child parent).mpr hp)

theorem parent_of_next (h : Forest doc kids) {sibling : NodeId}
    (hs : doc.next child = some sibling) : doc.parent sibling = doc.parent child := by
  cases hp : doc.parent child with
  | none => simp [(h.orphan child hp).2] at hs
  | some parent =>
    obtain ⟨before, after, hk⟩ := h.exists_split hp
    rw [(h.siblings_eq hk).2] at hs
    rw [← h.mem_kids, hk]
    simp [List.mem_of_head? hs]

theorem parent_of_previous (h : Forest doc kids) {sibling : NodeId}
    (hs : doc.previous child = some sibling) : doc.parent sibling = doc.parent child := by
  cases hp : doc.parent child with
  | none => simp [(h.orphan child hp).1] at hs
  | some parent =>
    obtain ⟨before, after, hk⟩ := h.exists_split hp
    rw [(h.siblings_eq hk).1] at hs
    rw [← h.mem_kids, hk]
    simp [List.mem_of_getLast? hs]

theorem kids_lt (h : Forest doc kids) (hc : child ∈ kids id) : child < doc.size :=
  h.child_lt child id ((h.mem_kids child id).mp hc)

theorem children_eq (h : Forest doc kids) (id : NodeId) : doc.children id = kids id :=
  follow_eq (h.forward id) (length_le_of_nodup (h.nodup id) fun _ hc => h.kids_lt hc)

/-- The children computed from the links are the children of the forest. -/
theorem self (h : Forest doc kids) : Forest doc doc.children := by
  have hk : doc.children = kids := funext h.children_eq
  rw [hk]
  exact h

theorem leads_ancestors (h : Forest doc kids) (id : NodeId) :
    Leads doc.parent (some id) (doc.ancestors id) none := by
  obtain ⟨above, ha⟩ := exists_leads_none (fun a b => h.child_lt a b) h.acyclic (some id)
  have hlength : above.length ≤ doc.size := by
    cases hp : doc.parent id with
    | none =>
      have : above = [id] := ha.eq_of_same_start ⟨rfl, hp⟩
      rw [this]
      exact Nat.succ_le_of_lt h.root_lt
    | some parent =>
      refine length_le_of_nodup (ha.nodup h.acyclic) fun x hx => ?_
      cases above with
      | nil => simp at hx
      | cons y above =>
        obtain ⟨hy, hrest⟩ := ha
        cases hy
        rcases List.mem_cons.mp hx with rfl | hx
        · exact h.child_lt x parent hp
        · obtain ⟨z, -, hz⟩ := Relation.TransGen.tail'_iff.mp (hrest.reaches hx)
          exact h.parent_lt hz
  rw [Document.ancestors, follow_eq ha hlength]
  exact ha

theorem mem_ancestors (h : Forest doc kids) {above : NodeId} :
    above ∈ doc.ancestors id ↔ doc.Within id above := by
  have hl := h.leads_ancestors id
  cases ha : doc.ancestors id with
  | nil => simp [ha, Leads] at hl
  | cons x rest =>
    rw [ha] at hl
    obtain ⟨hx, hrest⟩ := hl
    cases hx
    rw [List.mem_cons, Document.Within, Relation.reflTransGen_iff_eq_or_transGen]
    exact or_congr Iff.rfl ⟨hrest.reaches, hrest.mem_of_reaches⟩

theorem isAttached_iff (h : Forest doc kids) :
    doc.isAttached id ↔ doc.Within id Document.root := by
  rw [Document.isAttached, List.contains_iff_mem, h.mem_ancestors]

end Forest

end MarkupQuery.Tree
