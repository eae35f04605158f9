import MarkupQuery.Proofs.Tree.Reachable

namespace MarkupQuery.Tree

structure Layout where
  parent : NodeId → Option NodeId
  children : NodeId → List NodeId

def Document.layout (doc : Document) : Layout where
  parent := doc.parent
  children := doc.children

def directlyBefore (reference child : NodeId) : List NodeId → List NodeId
  | [] => []
  | id :: rest =>
    if id = reference then child :: id :: rest else id :: directlyBefore reference child rest

def directlyAfter (reference child : NodeId) : List NodeId → List NodeId
  | [] => []
  | id :: rest =>
    if id = reference then id :: child :: rest else id :: directlyAfter reference child rest

def inPlaceOf (old child : NodeId) : List NodeId → List NodeId
  | [] => []
  | id :: rest => if id = old then child :: rest else id :: inPlaceOf old child rest

inductive Move where
  | append (parent child : NodeId)
  | prepend (parent child : NodeId)
  | insertBefore (reference child : NodeId)
  | insertAfter (reference child : NodeId)
  | replace (old child : NodeId)
  | remove (child : NodeId)
  | detach (child : NodeId)

namespace Move

def change : Move → Change
  | append parent child => .append parent child
  | prepend parent child => .prepend parent child
  | insertBefore reference child => .insertBefore reference child
  | insertAfter reference child => .insertAfter reference child
  | replace old child => .replace old child
  | remove child => .remove child
  | detach child => .detach child

def child : Move → NodeId
  | append _ child | prepend _ child | insertBefore _ child | insertAfter _ child
  | replace _ child | remove child | detach child => child

def reference? : Move → Option NodeId
  | insertBefore reference _ | insertAfter reference _ | replace reference _ => some reference
  | append _ _ | prepend _ _ | remove _ | detach _ => none

def replaced? : Move → Option NodeId
  | replace old _ => some old
  | _ => none

def target? (l : Layout) : Move → Option NodeId
  | append parent _ | prepend parent _ => some parent
  | insertBefore reference _ | insertAfter reference _ | replace reference _ => l.parent reference
  | remove _ | detach _ => none

/-- The other children of the new parent with the moved node among them. -/
def arrange : Move → List NodeId → List NodeId
  | append _ child => fun others => others ++ [child]
  | prepend _ child => fun others => child :: others
  | insertBefore reference child => directlyBefore reference child
  | insertAfter reference child => directlyAfter reference child
  | replace old child => inPlaceOf old child
  | remove _ | detach _ => fun others => others

/-- What a move makes of a layout: the moved node is taken out of all lists and put among the
children of its new parent. -/
def onLayout (l : Layout) (move : Move) : Layout where
  parent id :=
    if id = move.child then move.target? l
    else if move.replaced? = some id then none
    else l.parent id
  children id :=
    let others := (l.children id).erase move.child
    if move.target? l = some id then move.arrange others else others

end Move

variable {doc new : Document} {parent child reference old : NodeId} {before after : List NodeId}

theorem directlyBefore_append (h : reference ∉ before) :
    directlyBefore reference child (before ++ reference :: after) =
      before ++ child :: reference :: after := by
  induction before with
  | nil => simp [directlyBefore]
  | cons id before ih =>
    rw [List.mem_cons, not_or] at h
    simp [directlyBefore, Ne.symm h.1, ih h.2]

theorem directlyAfter_append (h : reference ∉ before) :
    directlyAfter reference child (before ++ reference :: after) =
      before ++ reference :: child :: after := by
  induction before with
  | nil => simp [directlyAfter]
  | cons id before ih =>
    rw [List.mem_cons, not_or] at h
    simp [directlyAfter, Ne.symm h.1, ih h.2]

theorem inPlaceOf_append (h : old ∉ before) :
    inPlaceOf old child (before ++ old :: after) = before ++ child :: after := by
  induction before with
  | nil => simp [inPlaceOf]
  | cons id before ih =>
    rw [List.mem_cons, not_or] at h
    simp [inPlaceOf, Ne.symm h.1, ih h.2]

/-- `new` is `doc` with `child` taken out of all lists and put below `target`, whose children are
then `kids`. -/
structure Moved (doc new : Document) (child : NodeId) (target : Option NodeId)
    (kids : List NodeId) : Prop where
  parent_eq : ∀ id, new.parent id = if id = child then target else doc.parent id
  children_eq : ∀ id, new.children id =
    if target = some id then kids else (doc.children id).erase child
  payload_eq : ∀ id, new.payload id = doc.payload id
  size_eq : new.size = doc.size

namespace Forest

open Document

theorem not_mem_before {kids : NodeId → List NodeId} (h : Forest doc kids)
    (hk : kids parent = before ++ reference :: after) : reference ∉ before := by
  have hnodup := h.nodup parent
  rw [hk, List.nodup_middle, List.nodup_cons, List.mem_append, not_or] at hnodup
  exact hnodup.1.1

variable (h : Forest doc doc.children)
include h

theorem erase_append (hk : doc.children parent = before ++ after) :
    (doc.children parent).erase child =
      before.filter (· != child) ++ after.filter (· != child) := by
  rw [(h.nodup parent).erase_eq_filter, hk, List.filter_append]

theorem moved_of_inserted (hcheck : doc.checkInsertion parent child = .ok ())
    (hi : Inserted (doc.detach child) new parent child before after)
    (hk : (doc.children parent).erase child = before ++ after) :
    Moved doc new child (some parent) (before ++ child :: after) where
  parent_eq id := by
    rw [hi.parent_eq, parent_detach h]
    split_ifs <;> rfl
  children_eq id := by
    rw [(h.insert_detached hcheck hi hk).children_eq, Function.update_apply]
    simp only [Option.some.injEq, eq_comm]
  payload_eq id := by rw [hi.payload_eq, payload_detach h]
  size_eq := by rw [hi.size_eq, size_detach]

theorem moved_append (ho : doc.append parent child = .ok new) :
    Moved doc new child (some parent) ((doc.children parent).erase child ++ [child]) :=
  h.moved_of_inserted (append_eq_ok ho).1 (h.inserted_append ho) (by simp)

theorem moved_insertBefore (ho : doc.insertBefore reference child = .ok new)
    (hne : reference ≠ child) :
    ∃ parent, doc.parent reference = some parent ∧ Moved doc new child (some parent)
      (directlyBefore reference child ((doc.children parent).erase child)) := by
  obtain ⟨parent, before, after, hp, hk, hcheck, hi⟩ := h.inserted_insertBefore ho hne
  refine ⟨parent, hp, ?_⟩
  rw [hk, directlyBefore_append ((h.detach child).not_mem_before hk)]
  exact h.moved_of_inserted hcheck hi hk

theorem moved_detach (child : NodeId) : Moved doc (doc.detach child) child none [] where
  parent_eq := parent_detach h child
  children_eq := (h.detach child).children_eq
  payload_eq := payload_detach h child
  size_eq := size_detach doc child

/-- A child that already stands where it is put. -/
theorem moved_self (hp : doc.parent child = some parent) :
    Moved doc doc child (some parent) (doc.children parent) where
  parent_eq id := by
    split_ifs with hid
    · rw [hid, hp]
    · rfl
  children_eq id := by
    split_ifs with hid
    · rw [Option.some.inj hid]
    · rw [h.erase_eq fun hc => hid (hp.symm.trans hc)]
  payload_eq _ := rfl
  size_eq := rfl

theorem moved_prepend (ho : doc.prepend parent child = .ok new) :
    Moved doc new child (some parent) (child :: (doc.children parent).erase child) := by
  unfold Document.prepend at ho
  rw [h.firstChild_eq] at ho
  cases hk : doc.children parent with
  | nil =>
    simp only [hk, List.head?_nil] at ho
    simpa [hk] using h.moved_append ho
  | cons first rest =>
    simp only [hk, List.head?_cons] at ho
    have hp : doc.parent first = some parent := (h.mem_kids first parent).mp (by simp [hk])
    -- a node that is the first child already is put in front of itself
    by_cases hne : first = child
    · subst hne
      rw [Document.insertBefore, if_pos rfl, Except.ok.injEq] at ho
      subst ho
      simpa [hk] using h.moved_self hp
    · obtain ⟨parent', hp', hmoved⟩ := h.moved_insertBefore ho hne
      rw [hp, Option.some.injEq] at hp'
      subst hp'
      simpa [hk, hne, directlyBefore] using hmoved

theorem moved_insertAfter (ho : doc.insertAfter reference child = .ok new)
    (hne : reference ≠ child) :
    ∃ parent, doc.parent reference = some parent ∧ Moved doc new child (some parent)
      (directlyAfter reference child ((doc.children parent).erase child)) := by
  have hin : ∃ parent, doc.parent reference = some parent := by
    cases hp : doc.parent reference with
    | some parent => exact ⟨parent, rfl⟩
    | none =>
      obtain ⟨_, hs, -⟩ | ⟨-, _, hp', -⟩ := insertAfter_eq_ok ho
      · simp [(h.orphan reference hp).2] at hs
      · exact ⟨_, hp.symm.trans hp'⟩
  obtain ⟨parent, hp⟩ := hin
  obtain ⟨before, after, hk⟩ := h.exists_split hp
  have hbefore := h.not_mem_before hk
  have hrest : reference ∉ before.filter (· != child) := fun hm =>
    hbefore (List.mem_of_mem_filter hm)
  have herase : (doc.children parent).erase child =
      before.filter (· != child) ++ (reference :: after).filter (· != child) := h.erase_append hk
  rw [List.filter_cons_of_pos (by simpa using hne)] at herase
  refine ⟨parent, hp, ?_⟩
  obtain ⟨sibling, hs, ho⟩ | ⟨hs, parent', hp', ho⟩ := insertAfter_eq_ok ho
  -- in front of the next sibling if there is one, else behind all children
  · rw [(h.siblings_eq hk).2] at hs
    obtain ⟨after, rfl⟩ := List.head?_eq_some_iff.mp hs
    have hps : doc.parent sibling = some parent := (h.mem_kids sibling parent).mp (by simp [hk])
    have hk' : doc.children parent = (before ++ [reference]) ++ sibling :: after := by simp [hk]
    by_cases hns : sibling = child
    · -- the moved node already stands behind `reference`
      subst hns
      rw [Document.insertBefore, if_pos rfl, Except.ok.injEq] at ho
      subst ho
      have hself := h.moved_self hps
      rwa [erase_split hk' (h.nodup parent), List.append_assoc, List.singleton_append,
        directlyAfter_append hbefore, ← hk]
    · obtain ⟨parent', hp', hmoved⟩ := h.moved_insertBefore ho hns
      rw [hps, Option.some.injEq] at hp'
      subst hp'
      have hnot : sibling ∉ before.filter (· != child) ++ [reference] := by
        have hout := h.not_mem_before hk'
        rw [List.mem_append] at hout ⊢
        exact fun hm => hout (hm.imp_left List.mem_of_mem_filter)
      rw [List.filter_cons_of_pos (by simpa using hns)] at herase
      rw [herase, directlyAfter_append hrest]
      rw [herase, List.append_cons, directlyBefore_append hnot] at hmoved
      simpa using hmoved
  · rw [hp, Option.some.injEq] at hp'
    subst hp'
    rw [(h.siblings_eq hk).2, List.head?_eq_none_iff] at hs
    subst hs
    rw [herase, List.filter_nil, directlyAfter_append hrest]
    simpa [herase] using h.moved_append ho

theorem moved_replace (ho : doc.replace old child = .ok new) (hne : old ≠ child) :
    ∃ parent, doc.parent old = some parent ∧
      (∀ id, new.parent id =
        if id = child then some parent else if old = id then none else doc.parent id) ∧
      (∀ id, new.children id = if parent = id
        then inPlaceOf old child ((doc.children id).erase child)
        else (doc.children id).erase child) ∧
      (∀ id, new.payload id = doc.payload id) ∧ new.size = doc.size := by
  -- `child` comes to stand in front of `old`, which is then detached
  obtain ⟨moved, hb, rfl⟩ := replace_eq_ok ho hne
  obtain ⟨parent, before, after, hp, hk, hcheck, hi⟩ := h.inserted_insertBefore hb hne
  have hm := h.moved_of_inserted hcheck hi hk
  have hself := (h.insert_detached hcheck hi hk).self
  refine ⟨parent, hp, fun id => ?_, fun id => ?_, fun id => ?_, ?_⟩
  · rw [parent_detach hself, hm.parent_eq]
    by_cases hid : id = child
    · rw [if_neg (hid ▸ hne.symm), if_pos hid, if_pos hid]
    · rw [if_neg hid, if_neg hid]
      simp only [eq_comm]
  · rw [(hself.detach old).children_eq]
    by_cases hid : parent = id
    · subst hid
      have hnew : moved.children parent = (before ++ [child]) ++ old :: after := by
        simp [hm.children_eq]
      have hout : old ∉ before := fun hmem =>
        hself.not_mem_before hnew (List.mem_append_left _ hmem)
      rw [erase_split hnew (hself.nodup parent), if_pos rfl, hk, inPlaceOf_append hout]
      simp
    · have hpo : moved.parent old ≠ some id := by
        rw [hm.parent_eq, if_neg hne, hp]
        simpa using hid
      rw [hself.erase_eq hpo, hm.children_eq, if_neg hid, if_neg (by simpa using hid)]
  · rw [payload_detach hself, hm.payload_eq]
  · rw [size_detach, hm.size_eq]

end Forest

structure Move.Makes (move : Move) (doc new : Document) : Prop where
  layout_eq : new.layout = move.onLayout doc.layout
  payload_eq : ∀ id, new.payload id = doc.payload id
  size_eq : new.size = doc.size

namespace Move

open Document

theorem layout_eq_onLayout {move : Move}
    (hp : ∀ id, new.parent id = if id = move.child then move.target? doc.layout
      else if move.replaced? = some id then none else doc.parent id)
    (hk : ∀ id, new.children id = if move.target? doc.layout = some id
      then move.arrange ((doc.children id).erase move.child)
      else (doc.children id).erase move.child) :
    new.layout = move.onLayout doc.layout := by
  unfold Document.layout
  rw [funext hp, funext hk]
  rfl

theorem makes_of_moved {move : Move} {target : Option NodeId} {kids : List NodeId}
    (hm : Moved doc new move.child target kids) (hr : move.replaced? = none)
    (ht : move.target? doc.layout = target)
    (hk : ∀ parent, target = some parent →
      move.arrange ((doc.children parent).erase move.child) = kids) : move.Makes doc new where
  layout_eq := by
    refine layout_eq_onLayout (fun id => ?_) fun id => ?_
    · rw [hm.parent_eq, ht, hr]
      simp
    · rw [hm.children_eq, ht]
      split_ifs with hid
      · rw [hk id hid]
      · rfl
  payload_eq := hm.payload_eq
  size_eq := hm.size_eq

theorem makes (h : Forest doc doc.children) {move : Move} (ho : move.change.make doc = .ok new)
    (hne : move.reference? ≠ some move.child) : move.Makes doc new := by
  cases move with
  | append parent child =>
    exact makes_of_moved (h.moved_append ho) rfl rfl (by rintro _ ⟨⟩; rfl)
  | prepend parent child =>
    exact makes_of_moved (h.moved_prepend ho) rfl rfl (by rintro _ ⟨⟩; rfl)
  | insertBefore reference child =>
    obtain ⟨parent, hp, hm⟩ := h.moved_insertBefore ho fun he => hne (congrArg some he)
    exact makes_of_moved hm rfl hp (by rintro _ ⟨⟩; rfl)
  | insertAfter reference child =>
    obtain ⟨parent, hp, hm⟩ := h.moved_insertAfter ho fun he => hne (congrArg some he)
    exact makes_of_moved hm rfl hp (by rintro _ ⟨⟩; rfl)
  | replace old child =>
    obtain ⟨parent, hp, hparent, hchildren, hpayload, hsize⟩ :=
      h.moved_replace ho fun he => hne (congrArg some he)
    have ht : target? doc.layout (replace old child) = some parent := hp
    refine ⟨layout_eq_onLayout (fun id => ?_) fun id => ?_, hpayload, hsize⟩
    · rw [hparent, ht]
      simp [replaced?, Move.child]
    · rw [hchildren, ht]
      simp [arrange, Move.child]
  | remove child =>
    obtain rfl := remove_eq_ok ho
    exact makes_of_moved (h.moved_detach child) rfl rfl (by rintro _ ⟨⟩)
  | detach child =>
    obtain rfl := Except.ok.inj ho
    exact makes_of_moved (h.moved_detach child) rfl rfl (by rintro _ ⟨⟩)

/-- No move makes or drops a node or changes what it is. -/
theorem same_nodes {kids : NodeId → List NodeId} (h : Forest doc kids) {move : Move}
    (ho : move.change.make doc = .ok new) :
    new.size = doc.size ∧ ∀ id, new.payload id = doc.payload id := by
  cases move with
  | append parent child => exact ⟨h.size_append ho, h.payload_append ho⟩
  | prepend parent child =>
    change doc.prepend parent child = .ok new at ho
    unfold Document.prepend at ho
    split at ho
    · exact ⟨h.size_insertBefore ho, h.payload_insertBefore ho⟩
    · exact ⟨h.size_append ho, h.payload_append ho⟩
  | insertBefore reference child => exact ⟨h.size_insertBefore ho, h.payload_insertBefore ho⟩
  | insertAfter reference child =>
    obtain ⟨_, -, ho⟩ | ⟨-, _, -, ho⟩ := insertAfter_eq_ok ho
    · exact ⟨h.size_insertBefore ho, h.payload_insertBefore ho⟩
    · exact ⟨h.size_append ho, h.payload_append ho⟩
  | replace old child =>
    by_cases hne : old = child
    · change doc.replace old child = .ok new at ho
      rw [Document.replace, if_pos hne, Except.ok.injEq] at ho
      exact ho ▸ ⟨rfl, fun _ => rfl⟩
    · obtain ⟨moved, hb, rfl⟩ := replace_eq_ok ho hne
      obtain ⟨_, hmoved⟩ := h.exists_insertBefore hb
      refine ⟨by rw [size_detach, h.size_insertBefore hb], fun id => ?_⟩
      rw [payload_detach hmoved, h.payload_insertBefore hb]
  | remove child =>
    obtain rfl := remove_eq_ok ho
    exact ⟨size_detach doc child, payload_detach h child⟩
  | detach child =>
    obtain rfl := Except.ok.inj ho
    exact ⟨size_detach doc child, payload_detach h child⟩

theorem payload_eq {kids : NodeId → List NodeId} (h : Forest doc kids) {move : Move}
    (ho : move.change.make doc = .ok new) (id : NodeId) : new.payload id = doc.payload id :=
  (same_nodes h ho).2 id

theorem size_eq {kids : NodeId → List NodeId} (h : Forest doc kids) {move : Move}
    (ho : move.change.make doc = .ok new) : new.size = doc.size := (same_nodes h ho).1

/-- The reference of a move that succeeds has a parent. -/
theorem exists_target (h : Forest doc doc.children) {move : Move}
    (ho : move.change.make doc = .ok new) (hne : move.reference? ≠ some move.child)
    (hr : move.reference? = some reference) : ∃ parent, doc.parent reference = some parent := by
  cases move with
  | append | prepend | remove | detach => cases hr
  | insertBefore r child =>
    obtain rfl := Option.some.inj hr
    exact (h.moved_insertBefore ho fun he => hne (congrArg some he)).imp fun _ => And.left
  | insertAfter r child =>
    obtain rfl := Option.some.inj hr
    exact (h.moved_insertAfter ho fun he => hne (congrArg some he)).imp fun _ => And.left
  | replace old child =>
    obtain rfl := Option.some.inj hr
    exact (h.moved_replace ho fun he => hne (congrArg some he)).imp fun _ => And.left

namespace Makes

variable {move : Move} (hm : move.Makes doc new)
include hm

theorem parent_eq (id : NodeId) : new.parent id = if id = move.child
    then move.target? doc.layout
    else if move.replaced? = some id then none else doc.parent id :=
  congrFun (congrArg Layout.parent hm.layout_eq) id

theorem children_eq (id : NodeId) : new.children id = if move.target? doc.layout = some id
    then move.arrange ((doc.children id).erase move.child)
    else (doc.children id).erase move.child :=
  congrFun (congrArg Layout.children hm.layout_eq) id

/-- A node that is neither moved nor replaced keeps its parent. -/
theorem parent_eq_of_ne {id : NodeId} (hc : id ≠ move.child) (hr : move.replaced? ≠ some id) :
    new.parent id = doc.parent id := by
  rw [hm.parent_eq, if_neg hc, if_neg hr]

/-- A node that is neither the former nor the new parent keeps its children in their order. -/
theorem children_eq_of_ne (h : Forest doc doc.children) {id : NodeId}
    (hformer : doc.parent move.child ≠ some id) (hnew : new.parent move.child ≠ some id) :
    new.children id = doc.children id := by
  rw [hm.parent_eq, if_pos rfl] at hnew
  rw [hm.children_eq, if_neg hnew, h.erase_eq hformer]

/-- A former parent that is not the new one loses the moved node and nothing else. -/
theorem children_former (h : Forest doc doc.children) {id : NodeId}
    (hnew : new.parent move.child ≠ some id) :
    new.children id = (doc.children id).erase move.child ∧ move.child ∉ new.children id := by
  rw [hm.parent_eq, if_pos rfl] at hnew
  rw [hm.children_eq, if_neg hnew]
  exact ⟨rfl, (h.nodup id).not_mem_erase⟩

end Makes

end Move

/-- A move that succeeds does to the links of a reachable document what it does to the lists of
children: the moved node is taken out of its former parent's list and put where it is to stand, all
other nodes keep their parents and children, no payload changes, and the nodes stay the same. -/
theorem Document.Reachable.moves_refine (h : doc.Reachable) {move : Move}
    (ho : move.change.make doc = .ok new) (hne : move.reference? ≠ some move.child) :
    new.layout = move.onLayout doc.layout ∧
      (∀ reference, move.reference? = some reference →
        ∃ parent, doc.parent reference = some parent) ∧
      (∀ id, new.parent move.child ≠ some id →
        new.children id = (doc.children id).erase move.child ∧ move.child ∉ new.children id) ∧
      (∀ id, id ≠ move.child → move.replaced? ≠ some id → new.parent id = doc.parent id) ∧
      (∀ id, doc.parent move.child ≠ some id → new.parent move.child ≠ some id →
        new.children id = doc.children id) ∧
      (∀ id, new.payload id = doc.payload id) ∧ new.size = doc.size := by
  have hf := h.forest
  have hm := Move.makes hf ho hne
  exact ⟨hm.layout_eq, fun _ => Move.exists_target hf ho hne, fun _ => hm.children_former hf,
    fun _ => hm.parent_eq_of_ne, fun _ => hm.children_eq_of_ne hf, hm.payload_eq, hm.size_eq⟩

/-- The element that was moved out goes behind the one that it stood in front of. -/
theorem moves_refine_movedOut : ∃ new, movedOut.insertAfter 1 2 = .ok new ∧
    movedOut.children 0 = [2, 1] ∧ new.children 0 = [1, 2] ∧
    new.layout = (Move.insertAfter 1 2).onLayout movedOut.layout ∧ new.size = movedOut.size := by
  have ho : (Move.insertAfter 1 2).change.make movedOut =
      .ok ((Change.insertAfter 1 2).apply movedOut) := rfl
  obtain ⟨hlayout, -, -, -, -, -, hsize⟩ :=
    Document.Reachable.moves_refine reachable_movedOut ho (by decide)
  exact ⟨_, ho, by decide, by decide, hlayout, hsize⟩

end MarkupQuery.Tree
