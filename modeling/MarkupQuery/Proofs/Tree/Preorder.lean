import MarkupQuery.Proofs.Tree.Forest

namespace MarkupQuery.Tree

/-- A chain that ends visits no node twice. -/
theorem Leads.nodup_of_none {link : NodeId → Option NodeId} {start : Option NodeId}
    {ids : List NodeId} (h : Leads link start ids none) : ids.Nodup := by
  induction ids generalizing start with
  | nil => exact List.nodup_nil
  | cons id ids ih =>
    refine List.nodup_cons.mpr ⟨fun hid => ?_, ih h.2⟩
    obtain ⟨before, after, rfl⟩ := List.append_of_mem hid
    -- behind both occurrences of `id` the chain would be the same
    obtain ⟨_, -, -, hafter⟩ := leads_append.mp h.2
    have heq := h.2.eq_of_same_start hafter
    have hlength := congrArg List.length heq
    simp at hlength
    omega

/-- The node that comes after everything below `id` in the walk below `top`. -/
abbrev Document.after (doc : Document) (top id : NodeId) : Option NodeId :=
  doc.afterSubtree top (doc.size + 1) id

namespace Forest

open Document

variable {doc : Document} {kids : NodeId → List NodeId} {id child parent top : NodeId}

theorem length_ancestors_le (doc : Document) (id : NodeId) :
    (doc.ancestors id).length ≤ doc.size := by
  have hfollow : ∀ fuel (start : Option NodeId), (follow doc.parent fuel start).length ≤ fuel := by
    intro fuel
    induction fuel with
    | zero => simp [follow]
    | succ fuel ih =>
      intro start
      cases start with
      | none => simp [follow]
      | some id => simpa [follow] using ih (doc.parent id)
  exact hfollow doc.size (some id)

theorem ancestors_eq (h : Forest doc kids) (hp : doc.parent child = some parent) :
    doc.ancestors child = child :: doc.ancestors parent := by
  refine (h.leads_ancestors child).eq_of_same_start ⟨rfl, ?_⟩
  rw [hp]
  exact h.leads_ancestors parent

theorem ancestors_top (h : Forest doc kids) (hp : doc.parent id = none) :
    doc.ancestors id = [id] :=
  (h.leads_ancestors id).eq_of_same_start ⟨rfl, hp⟩

theorem exists_ancestors (h : Forest doc kids) (id : NodeId) :
    ∃ rest, doc.ancestors id = id :: rest := by
  cases hp : doc.parent id with
  | none => exact ⟨[], h.ancestors_top hp⟩
  | some parent => exact ⟨_, h.ancestors_eq hp⟩

theorem parent_root (h : Forest doc kids) : doc.parent Document.root = none :=
  h.document _ h.root_payload

/-- What follows for a node from what holds for its children holds for every node. -/
theorem induction_below (h : Forest doc kids) {P : NodeId → Prop}
    (step : ∀ id, (∀ child ∈ kids id, P child) → P id) (id : NodeId) : P id := by
  -- the ancestors get more on the way down, but never more than there are nodes
  induction hn : doc.size - (doc.ancestors id).length using Nat.strongRecOn generalizing id with
  | ind n ih =>
    refine step id fun child hchild => ih _ ?_ child rfl
    have hlength := h.ancestors_eq ((h.mem_kids child id).mp hchild)
    have hle := length_ancestors_le doc child
    rw [hlength, List.length_cons] at *
    omega

theorem afterSubtree_fuel {above : List NodeId} (hl : Leads doc.parent (some id) above none)
    {fuel fuel' : Nat} (hf : above.length ≤ fuel) (hf' : above.length ≤ fuel') :
    doc.afterSubtree top fuel id = doc.afterSubtree top fuel' id := by
  induction above generalizing id fuel fuel' with
  | nil => simp [Leads] at hl
  | cons x above ih =>
    obtain ⟨hx, hl⟩ := hl
    obtain rfl := Option.some.inj hx
    obtain ⟨fuel, rfl⟩ := Nat.exists_eq_add_of_le' (Nat.le_trans (Nat.le_add_left 1 _) hf)
    obtain ⟨fuel', rfl⟩ := Nat.exists_eq_add_of_le' (Nat.le_trans (Nat.le_add_left 1 _) hf')
    rw [List.length_cons, Nat.add_le_add_iff_right] at hf hf'
    unfold afterSubtree
    split
    · rfl
    · split
      · rfl
      · cases hp : doc.parent id with
        | none => rfl
        | some parent =>
          rw [hp] at hl
          exact ih hl hf hf'

theorem after_top (doc : Document) (top : NodeId) : doc.after top top = none := by
  rw [Document.after, afterSubtree, if_pos rfl]

theorem after_eq (h : Forest doc kids) (hp : doc.parent child = some parent) (hne : child ≠ top) :
    doc.after top child = (doc.next child).or (doc.after top parent) := by
  rw [Document.after, afterSubtree, if_neg hne, hp]
  cases doc.next child with
  | some sibling => rfl
  | none =>
    have hle := length_ancestors_le doc parent
    exact afterSubtree_fuel (h.leads_ancestors parent) hle (Nat.le_succ_of_le hle)

theorem within_of_mem_kids (h : Forest doc kids) (hc : child ∈ kids id) : doc.Within child id :=
  .single ((h.mem_kids child id).mp hc)

theorem ne_of_mem_kids (h : Forest doc kids) (hc : child ∈ kids id) (hw : doc.Within id top) :
    child ≠ top := by
  rintro rfl
  exact h.acyclic child (.head' ((h.mem_kids child id).mp hc) hw)

/-- The walk visits the subtrees of the children one after the other. -/
theorem leads_kids (h : Forest doc kids) (hw : doc.Within id top) {before rest : List NodeId}
    (hk : kids id = before ++ rest)
    (ih : ∀ child ∈ rest, Leads (doc.preorderNext top) (some child) (doc.subtree child)
      (doc.after top child)) :
    Leads (doc.preorderNext top) (rest.head?.or (doc.after top id)) (rest.flatMap doc.subtree)
      (doc.after top id) := by
  induction rest generalizing before with
  | nil => rfl
  | cons child rest ihrest =>
    have hmem : child ∈ kids id := by simp [hk]
    refine leads_append.mpr ⟨_, ih child (by simp), ?_⟩
    rw [h.after_eq ((h.mem_kids child id).mp hmem) (h.ne_of_mem_kids hmem hw),
      (h.siblings_eq hk).2]
    have hk' : kids id = (before ++ [child]) ++ rest := by simpa using hk
    exact ihrest hk' fun x hx => ih x (by simp [hx])

/-- What the walk of a subtree visits, and where it goes from there. -/
structure Walked (doc : Document) (kids : NodeId → List NodeId) (id : NodeId) : Prop where
  subtree_eq : doc.subtree id = id :: (kids id).flatMap doc.subtree
  within : ∀ x ∈ doc.subtree id, doc.Within x id
  leads : ∀ top, doc.Within id top →
    Leads (doc.preorderNext top) (some id) (doc.subtree id) (doc.after top id)

theorem preorderNext_eq (h : Forest doc kids) (top id : NodeId) :
    doc.preorderNext top id = (kids id).head?.or (doc.after top id) := by
  rw [preorderNext, h.firstChild_eq]
  cases (kids id).head? <;> rfl

theorem walked (h : Forest doc kids) (id : NodeId) : Walked doc kids id := by
  refine h.induction_below (fun id ih => ?_) id
  have hleads : ∀ top, doc.Within id top →
      Leads (doc.preorderNext top) (some id) (id :: (kids id).flatMap doc.subtree)
        (doc.after top id) := by
    intro top hw
    refine ⟨rfl, ?_⟩
    rw [h.preorderNext_eq]
    exact h.leads_kids hw (List.nil_append _).symm fun child hchild =>
      (ih child hchild).leads top (.head ((h.mem_kids child id).mp hchild) hw)
  have hwithin : ∀ x ∈ id :: (kids id).flatMap doc.subtree, doc.Within x id := by
    intro x hx
    rcases List.mem_cons.mp hx with rfl | hx
    · exact .refl
    · obtain ⟨child, hchild, hx⟩ := List.mem_flatMap.mp hx
      exact ((ih child hchild).within x hx).trans (h.within_of_mem_kids hchild)
  have heq : doc.subtree id = id :: (kids id).flatMap doc.subtree := by
    have hself := hleads id .refl
    rw [after_top] at hself
    have hnodup := (List.nodup_cons.mp hself.nodup_of_none)
    have hlength : ((kids id).flatMap doc.subtree).length ≤ doc.size := by
      refine length_le_of_nodup hnodup.2 fun x hx => ?_
      rcases Relation.ReflTransGen.cases_head (hwithin x (by simp [hx])) with rfl | ⟨y, hy, -⟩
      · exact absurd hx hnodup.1
      · exact h.child_lt x y hy
    have hrest := hself.2
    rw [h.preorderNext_eq, after_top, Option.or_none, ← h.firstChild_eq] at hrest
    rw [Document.subtree, descendants, follow_eq hrest hlength]
  rw [← heq] at hwithin
  exact ⟨heq, hwithin, fun top hw => heq ▸ hleads top hw⟩

/-- The subtree of a node is the node itself and then the subtrees of its children. -/
theorem subtree_eq (h : Forest doc kids) (id : NodeId) :
    doc.subtree id = id :: (kids id).flatMap doc.subtree := (h.walked id).subtree_eq

theorem descendants_eq (h : Forest doc kids) (id : NodeId) :
    doc.descendants id = (kids id).flatMap doc.subtree :=
  (List.cons.inj (h.subtree_eq id)).2

theorem mem_subtree (h : Forest doc kids) : child ∈ doc.subtree id ↔ doc.Within child id := by
  refine ⟨(h.walked id).within child, fun hw => ?_⟩
  induction hw with
  | refl => exact List.mem_cons_self
  | @tail below above hw hp ih =>
    rw [h.subtree_eq above]
    exact List.mem_cons_of_mem _
      (List.mem_flatMap.mpr ⟨below, (h.mem_kids below above).mpr hp, ih⟩)

theorem nodup_subtree (h : Forest doc kids) (id : NodeId) : (doc.subtree id).Nodup := by
  have hleads := (h.walked id).leads id .refl
  rw [after_top] at hleads
  exact hleads.nodup_of_none

theorem mem_descendants (h : Forest doc kids) : child ∈ doc.descendants id ↔ doc.Below child id := by
  have hnot : id ∉ doc.descendants id := (List.nodup_cons.mp (h.nodup_subtree id)).1
  have hsubtree : child ∈ doc.subtree id ↔ doc.Within child id := h.mem_subtree
  rw [Document.subtree, List.mem_cons, Document.Within,
    Relation.reflTransGen_iff_eq_or_transGen] at hsubtree
  by_cases he : child = id
  · subst he
    simp [hnot, h.acyclic child]
  · simpa [he, Ne.symm he] using hsubtree

theorem subtree_lt (h : Forest doc kids) (hid : id < doc.size) (hc : child ∈ doc.subtree id) :
    child < doc.size := by
  rcases Relation.ReflTransGen.cases_head (h.mem_subtree.mp hc) with rfl | ⟨x, hx, -⟩
  · exact hid
  · exact h.child_lt child x hx

theorem kids_sublist (h : Forest doc kids) (id : NodeId) :
    (kids id).Sublist (doc.descendants id) := by
  rw [h.descendants_eq]
  have hsubtree : ∀ ids : List NodeId, ids.Sublist (ids.flatMap doc.subtree) := by
    intro ids
    induction ids with
    | nil => exact .slnil
    | cons x ids ih => exact (ih.trans (List.sublist_append_right _ _)).cons_cons x
  exact hsubtree _

theorem subtree_sublist (h : Forest doc kids) (hw : doc.Within child id) :
    (doc.subtree child).Sublist (doc.subtree id) := by
  induction hw with
  | refl => exact .refl _
  | @tail below above hw hp ih =>
    refine ih.trans ?_
    rw [h.subtree_eq above]
    have hmem : doc.subtree below ∈ (kids above).map doc.subtree :=
      List.mem_map_of_mem ((h.mem_kids below above).mpr hp)
    exact (List.sublist_flatten_of_mem hmem).cons above

end Forest

/-!
### Ranks

The ranks of attached nodes increase along the walk of the document.
-/

private abbrev written (table : Array Nat) (start : Nat) (ids : List NodeId) : Array Nat :=
  (ids.zipIdx start).foldl (fun ranks (id, position) => ranks.setIfInBounds id position) table

private theorem getD_written_of_not_mem {id : NodeId} {ids : List NodeId} (hid : id ∉ ids)
    (table : Array Nat) (start default : Nat) :
    (written table start ids).getD id default = table.getD id default := by
  induction ids generalizing table start with
  | nil => rfl
  | cons x ids ih =>
    obtain ⟨hx, hrest⟩ := not_or.mp (mt List.mem_cons.mpr hid)
    rw [written, List.zipIdx_cons, List.foldl_cons]
    refine (ih hrest _ (start + 1)).trans ?_
    simp [Array.getD_eq_getD_getElem?, Ne.symm hx]

private theorem getD_written {id : NodeId} {before after : List NodeId}
    (hn : (before ++ id :: after).Nodup) {table : Array Nat} (hid : id < table.size)
    (start default : Nat) :
    (written table start (before ++ id :: after)).getD id default = start + before.length := by
  induction before generalizing table start with
  | nil =>
    have hafter : id ∉ after := (List.nodup_cons.mp hn).1
    rw [List.nil_append, written, List.zipIdx_cons, List.foldl_cons]
    refine (getD_written_of_not_mem hafter _ (start + 1) default).trans ?_
    simp [Array.getD_eq_getD_getElem?, hid]
  | cons x before ih =>
    rw [List.cons_append, written, List.zipIdx_cons, List.foldl_cons]
    refine (ih (List.nodup_cons.mp hn).2 (by simpa using hid) (start + 1)).trans ?_
    rw [List.length_cons]
    omega

/-- A node that the walk does not meet is ranked last. -/
theorem rank_of_not_mem {doc : Document} {id : NodeId} (h : id ∉ doc.subtree Document.root) :
    doc.rank id = Document.detachedRank := by
  rw [Document.rank, Document.ranks]
  refine (getD_written_of_not_mem h _ 0 _).trans ?_
  rw [Array.getD_eq_getD_getElem?, Array.getElem?_replicate]
  split <;> rfl

namespace Forest

variable {doc : Document} {kids : NodeId → List NodeId}

/-- The rank of an attached node is the number of nodes before it in the walk. -/
theorem rank_eq (h : Forest doc kids) {id : NodeId} {before after : List NodeId}
    (hs : doc.subtree Document.root = before ++ id :: after) : doc.rank id = before.length := by
  have hn := h.nodup_subtree Document.root
  have hid : id < doc.size := h.subtree_lt h.root_lt (hs ▸ List.mem_append_cons_self)
  rw [hs] at hn
  rw [Document.rank, Document.ranks, hs]
  exact (getD_written hn (by simpa using hid) 0 _).trans (Nat.zero_add _)

/-- The rank of an attached node is below that of a detached one if the nodes fit into 32 bits. -/
theorem rank_lt (h : Forest doc kids) (hsize : doc.size ≤ 0xFFFFFFFF) {id : NodeId}
    (hid : id ∈ doc.subtree Document.root) : doc.rank id < Document.detachedRank := by
  obtain ⟨before, after, hs⟩ := List.append_of_mem hid
  have hlength := length_le_of_nodup (h.nodup_subtree Document.root) fun x hx =>
    h.subtree_lt h.root_lt hx
  rw [h.rank_eq hs, Document.detachedRank]
  rw [hs, List.length_append, List.length_cons] at hlength
  omega

/-- Ranks fit into 32 bits if the nodes do. -/
theorem rank_le (h : Forest doc kids) (hsize : doc.size ≤ 0xFFFFFFFF) (id : NodeId) :
    doc.rank id ≤ Document.detachedRank := by
  by_cases hid : id ∈ doc.subtree Document.root
  · exact Nat.le_of_lt (h.rank_lt hsize hid)
  · exact Nat.le_of_eq (rank_of_not_mem hid)

theorem pairwise_rank (h : Forest doc kids) :
    (doc.subtree Document.root).Pairwise fun a b => doc.rank a < doc.rank b := by
  have hsuffix : ∀ before rest, doc.subtree Document.root = before ++ rest →
      rest.Pairwise fun a b => doc.rank a < doc.rank b := by
    intro before rest
    induction rest generalizing before with
    | nil => exact fun _ => .nil
    | cons id rest ih =>
      intro hs
      refine .cons (fun x hx => ?_) (ih (before ++ [id]) (by simpa using hs))
      obtain ⟨middle, after, rfl⟩ := List.append_of_mem hx
      have hx' : doc.subtree Document.root = (before ++ id :: middle) ++ x :: after := by
        simpa using hs
      rw [h.rank_eq hs, h.rank_eq hx', List.length_append, List.length_cons]
      omega
  exact hsuffix [] _ rfl

end Forest

end MarkupQuery.Tree
