import MarkupQuery.Proofs.Tree.Preorder
import MarkupQuery.Proofs.Tree.Reachable
import MarkupQuery.Tree.Indexed

namespace MarkupQuery.Tree

namespace Indexed

variable {s : Indexed} {parent child id : NodeId}

@[simp] theorem document_borrow (s : Indexed) : s.borrow.document = s.document := rfl

@[simp] theorem document_write (s : Indexed) (id : NodeId) (f : Node → Node) :
    (s.write id f).document = s.document.update id f := rfl

@[simp] theorem document_writeElement (s : Indexed) (id : NodeId) (f : Element → Element) :
    (s.writeElement id f).document = s.document.updateElement id f := rfl

@[simp] theorem document_joinNeighbours (s : Indexed) (parent : NodeId)
    (before after : Option NodeId) : (s.joinNeighbours parent before after).document =
      s.document.joinNeighbours parent before after := by
  cases before <;> cases after <;> rfl

@[simp] theorem document_detach (s : Indexed) (id : NodeId) :
    (s.detach id).document = s.document.detach id := by
  unfold detach Document.detach
  cases s.document.parent id with
  | none => rfl
  | some parent => rw [document_write, document_joinNeighbours]

@[simp] theorem document_linkLast (s : Indexed) (parent child : NodeId) :
    (s.linkLast parent child).document = s.document.linkLast parent child := by
  unfold linkLast Document.linkLast
  cases s.document.lastChild parent <;> rfl

@[simp] theorem document_linkBefore (s : Indexed) (parent reference child : NodeId) :
    (s.linkBefore parent reference child).document =
      s.document.linkBefore parent reference child := by
  unfold linkBefore Document.linkBefore
  cases s.document.previous reference <;> rfl

mutual

theorem document_graft : ∀ (tree : Subtree) (s : Indexed),
    (s.graft tree).1.document = (s.document.graft tree).1 ∧
      (s.graft tree).2 = (s.document.graft tree).2
  | .mk payload children, s => by
    rw [graft, Document.graft]
    exact ⟨document_graftBelow children (s.create payload).1 s.document.size, rfl⟩

theorem document_graftBelow : ∀ (trees : List Subtree) (s : Indexed) (parent : NodeId),
    (s.graftBelow parent trees).document = s.document.graftBelow parent trees
  | [], _, _ => rfl
  | tree :: rest, s, parent => by
    obtain ⟨htree, hid⟩ := document_graft tree s
    rw [graftBelow, Document.graftBelow]
    dsimp only
    rw [document_graftBelow rest, document_linkLast, htree, hid]

end

/-! What is known of positions is true. -/

/-- The positions, if they are known, are those of the document as it is. -/
def Fresh (s : Indexed) : Prop := ∀ table, s.positions = some table → table = positionsOf s.document

theorem fresh_of_none (h : s.positions = none) : s.Fresh := fun table ht => by
  rw [h] at ht
  cases ht

theorem fresh_borrow (s : Indexed) : s.borrow.Fresh := fresh_of_none rfl

theorem fresh_write (s : Indexed) (id : NodeId) (f : Node → Node) : (s.write id f).Fresh :=
  fresh_of_none rfl

theorem fresh_writeElement (s : Indexed) (id : NodeId) (f : Element → Element) :
    (s.writeElement id f).Fresh := fresh_write s id _

theorem fresh_position (h : s.Fresh) (id : NodeId) : (s.position id).2.Fresh := by
  intro table ht
  obtain rfl := Option.some.inj ht
  cases hp : s.positions with
  | none => rfl
  | some known => exact h known hp

theorem fresh_detach (h : s.Fresh) (id : NodeId) : (s.detach id).Fresh := by
  unfold detach
  split
  · exact h
  · exact fresh_write _ _ _

theorem fresh_graftBelow (trees : List Subtree) {s : Indexed} (h : s.Fresh) (parent : NodeId) :
    (s.graftBelow parent trees).Fresh := by
  induction trees generalizing s with
  | nil => exact h
  | cons tree rest ih => exact ih (fresh_write _ _ _)

theorem fresh_graft (tree : Subtree) (s : Indexed) : (s.graft tree).1.Fresh := by
  cases tree with
  | mk payload children => exact fresh_graftBelow children (fresh_of_none rfl) _

/-- The position that is answered is the rank in the document as it is, as far as 32 bits reach. -/
theorem position_eq (h : s.Fresh) (id : NodeId) :
    (s.position id).1 = min (s.document.rank id) Document.detachedRank := by
  have htable : s.positions.getD (positionsOf s.document) = positionsOf s.document := by
    cases hp : s.positions with
    | none => rfl
    | some known => exact h known hp
  rw [position, htable, positionsOf, Document.rank, Array.getD_eq_getD_getElem?,
    Array.getD_eq_getD_getElem?, Array.getElem?_map]
  cases s.document.ranks[id]? with
  | none => exact (Nat.min_self _).symm
  | some rank => rfl

/-! Calls. -/

/-- A call has the outcome that it has on the document alone, which stays as it is if the call fails,
and what is known of positions is true afterwards. -/
inductive Follows (s : Indexed) : Outcome → Except Error Document → Prop
  | made {new : Indexed} (h : new.Fresh) : Follows s (.ok (), new) (.ok new.document)
  | failed {left : Indexed} (e : Error) (h : left.Fresh) (hd : left.document = s.document) :
    Follows s (.error e, left) (.error e)

namespace Follows

variable {called : Outcome} {made : Except Error Document}

theorem ok {new : Indexed} (h : new.Fresh) {doc : Document} (hd : new.document = doc) :
    Follows s (.ok (), new) (.ok doc) := hd ▸ Follows.made h

theorem error (h : s.Fresh) (e : Error) : Follows s (.error e, s) (.error e) := .failed e h rfl

theorem fresh (h : Follows s called made) : called.2.Fresh := by
  cases h with
  | made h => exact h
  | failed _ h => exact h

theorem document_eq {change : Change} (h : Follows s called (change.make s.document)) :
    called.2.document = change.apply s.document := by
  unfold Change.apply
  generalize change.make s.document = made at h
  cases h with
  | made => rfl
  | failed _ _ hd => exact hd

/-- A call that goes on after a check follows what the document does after the same check. -/
theorem after (h : s.Fresh) {check : Except Error Unit} {next : Indexed → Outcome}
    (hnext : Follows s (next s) made) :
    Follows s (s.after check next) (check >>= fun _ => made) := by
  cases check with
  | ok => exact hnext
  | error e => exact .error h e

end Follows

theorem follows_append (h : s.Fresh) (parent child : NodeId) :
    Follows s (s.append parent child) (s.document.append parent child) := by
  refine .after h (.ok ?_ ?_)
  · exact fresh_write _ _ _
  · rw [document_linkLast, document_detach]

theorem follows_insertBefore (h : s.Fresh) (reference child : NodeId) :
    Follows s (s.insertBefore reference child) (s.document.insertBefore reference child) := by
  unfold insertBefore Document.insertBefore
  split
  · exact .ok h rfl
  · cases s.document.requireParent reference with
    | error e => exact .error h e
    | ok parent =>
      refine .after h (.ok ?_ ?_)
      · exact fresh_write _ _ _
      · rw [document_linkBefore, document_detach]

theorem follows_insertAfter (h : s.Fresh) (reference child : NodeId) :
    Follows s (s.insertAfter reference child) (s.document.insertAfter reference child) := by
  unfold insertAfter Document.insertAfter
  cases s.document.next reference with
  | some sibling => exact follows_insertBefore h sibling child
  | none =>
    cases s.document.requireParent reference with
    | error e => exact .error h e
    | ok parent => exact follows_append h parent child

theorem follows_prepend (h : s.Fresh) (parent child : NodeId) :
    Follows s (s.prepend parent child) (s.document.prepend parent child) := by
  unfold prepend Document.prepend
  cases s.document.firstChild parent with
  | some first => exact follows_insertBefore h first child
  | none => exact follows_append h parent child

theorem follows_replace (h : s.Fresh) (old child : NodeId) :
    Follows s (s.replace old child) (s.document.replace old child) := by
  unfold replace Document.replace
  split
  · exact .ok h rfl
  · have hinserted := follows_insertBefore h old child
    generalize s.insertBefore old child = called at hinserted ⊢
    generalize s.document.insertBefore old child = made at hinserted ⊢
    cases hinserted with
    | made hnew => exact .ok (fresh_detach hnew old) (document_detach _ old)
    | failed e hleft hd => exact .failed e hleft hd

theorem follows_remove (h : s.Fresh) (id : NodeId) :
    Follows s (s.remove id) (s.document.remove id) := by
  unfold remove Document.remove
  split
  · exact .error h _
  · cases s.document.requireParent id with
    | error e => exact .error h e
    | ok parent => exact .ok (fresh_detach h id) (document_detach s id)

/-- A call for an element borrows the node, so it gives the positions up even if it fails. -/
theorem follows_writeElement (s : Indexed) (id : NodeId) (f : Element → Element) :
    Follows s (s.borrow.after (s.document.requireElement id) fun s => (.ok (), s.writeElement id f))
      (s.document.requireElement id >>= fun _ => .ok (s.document.updateElement id f)) := by
  cases s.document.requireElement id with
  | ok => exact .ok (fresh_writeElement _ _ _) rfl
  | error e => exact .failed e (fresh_borrow s) rfl

theorem follows_edit (h : s.Fresh) (edits : List NamespaceEdit) :
    Follows s (s.edit edits) ((s.document.edit edits).map Prod.fst) := by
  have hfold : ∀ (edits : List NamespaceEdit) {s : Indexed}, s.Fresh →
      let made := edits.foldl (fun s edit => s.writeElement edit.element edit.onElement) s
      made.Fresh ∧ made.document = edits.foldl NamespaceEdit.perform s.document := by
    intro edits
    induction edits with
    | nil => exact fun h => ⟨h, rfl⟩
    | cons edit edits ih => exact fun _ => ih (fresh_writeElement _ _ _)
  unfold edit Document.edit
  cases edits.forM (NamespaceEdit.check s.document) with
  | error e => exact .error h e
  | ok => exact .ok (hfold edits h).1 (hfold edits h).2

theorem follows_importFrom (h : s.Fresh) (source : Document) (id : NodeId) :
    Follows s (s.importFrom source id) ((s.document.importFrom source id).map Prod.fst) := by
  unfold importFrom Document.importFrom
  cases source.importTop id with
  | error e => exact .error h e
  | ok top => exact .ok (fresh_graft _ s) (document_graft _ s).1

def call (s : Indexed) : Change → Outcome
  | .create payload => (.ok (), (s.create payload).1)
  | .append parent child => s.append parent child
  | .prepend parent child => s.prepend parent child
  | .insertBefore reference child => s.insertBefore reference child
  | .insertAfter reference child => s.insertAfter reference child
  | .replace old child => s.replace old child
  | .remove id => s.remove id
  | .detach id => (.ok (), s.detach id)
  | .importFrom source id => s.importFrom source id
  | .setAttribute id name value => s.setAttribute id name value
  | .removeAttribute id name => (.ok (), s.removeAttribute id name)
  | .declareNamespace id qualifier uri => s.declareNamespace id qualifier uri
  | .edit edits => s.edit edits

/-- Every change has the outcome that it has on the document alone, and leaves no stale positions. -/
theorem follows_call (h : s.Fresh) (change : Change) :
    Follows s (s.call change) (change.make s.document) := by
  cases change with
  | create payload => exact .ok (fresh_of_none rfl) rfl
  | append parent child => exact follows_append h parent child
  | prepend parent child => exact follows_prepend h parent child
  | insertBefore reference child => exact follows_insertBefore h reference child
  | insertAfter reference child => exact follows_insertAfter h reference child
  | replace old child => exact follows_replace h old child
  | remove id => exact follows_remove h id
  | detach id => exact .ok (fresh_detach h id) (document_detach s id)
  | importFrom source id => exact follows_importFrom h source id
  | setAttribute id name value => exact follows_writeElement s id _
  | removeAttribute id name => exact .ok (fresh_writeElement _ _ _) rfl
  | declareNamespace id qualifier uri => exact follows_writeElement s id _
  | edit edits => exact follows_edit h edits

/-- Indexed documents that are empty or read, with changes and questions for positions in any order.
Nodes are copied from documents of the same kind. -/
inductive Reachable : Indexed → Prop
  | empty : Reachable { document := .empty }
  | parse {markup : String} {doc : Document} (h : Document.parse markup = .ok doc) :
    Reachable { document := doc }
  | call {s : Indexed} (h : s.Reachable) (change : Change)
    (hs : ∀ source id, change = .importFrom source id → source.Reachable) :
    Reachable (s.call change).2
  | position {s : Indexed} (h : s.Reachable) (id : NodeId) : Reachable (s.position id).2

namespace Reachable

theorem fresh (h : s.Reachable) : s.Fresh := by
  induction h with
  | empty | parse => exact fresh_of_none rfl
  | call _ change _ ih => exact (follows_call ih change).fresh
  | position _ id ih => exact fresh_position ih id

theorem document (h : s.Reachable) : s.document.Reachable := by
  induction h with
  | empty => exact .empty
  | parse hp => exact .parse hp
  | call h change hs ih => exact (follows_call h.fresh change).document_eq ▸ ih.change change hs
  | position _ _ ih => exact ih

end Reachable

end Indexed

end MarkupQuery.Tree
