import MarkupQuery.Proofs.Tree.Batches
import MarkupQuery.Proofs.Tree.Layout

namespace MarkupQuery.Tree

/-- A call on a document that may fail. What it did before it fails stays done. -/
abbrev Command (α : Type) := ExceptT Error (StateM Document) α

namespace Command

def runOn {α : Type} (command : Command α) (doc : Document) : Except Error α × Document :=
  (StateT.run (ExceptT.run command) doc).run

def consult {α : Type} (f : Document → Except Error α) : Command α := do
  match f (← get) with
  | .ok a => pure a
  | .error e => throw e

def append (parent child : NodeId) : Command Unit := do
  consult fun doc => doc.checkInsertion parent child
  modify fun doc => doc.detach child
  modify fun doc => doc.linkLast parent child

def insertBefore (reference child : NodeId) : Command Unit :=
  if reference = child then pure ()
  else do
    let parent ← consult fun doc => doc.requireParent reference
    consult fun doc => doc.checkInsertion parent child
    modify fun doc => doc.detach child
    modify fun doc => doc.linkBefore parent reference child

def insertAfter (reference child : NodeId) : Command Unit := do
  match (← get).next reference with
  | some sibling => insertBefore sibling child
  | none => do
    let parent ← consult fun doc => doc.requireParent reference
    append parent child

def prepend (parent child : NodeId) : Command Unit := do
  match (← get).firstChild parent with
  | some first => insertBefore first child
  | none => append parent child

def replace (old child : NodeId) : Command Unit :=
  if old = child then pure ()
  else do
    insertBefore old child
    modify fun doc => doc.detach old

def remove (id : NodeId) : Command Unit := do
  consult fun doc => if doc.contains id then .ok () else .error (.unknownNode id)
  let _ ← consult fun doc => doc.requireParent id
  modify fun doc => doc.detach id

def detach (id : NodeId) : Command Unit := modify fun doc => doc.detach id

/-- A batch of edits is looked through before its first edit is made. -/
def edit (edits : List NamespaceEdit) : Command Nat := do
  edits.forM fun edit => consult fun doc => edit.check doc
  edits.forM fun edit => modify fun doc => edit.perform doc
  pure edits.length

/-- How a call ends that gives `made` on `doc`, if one that fails has changed nothing. -/
def outcome (doc : Document) : Except Error Document → Except Error Unit × Document
  | .ok new => (.ok (), new)
  | .error e => (.error e, doc)

variable {α β : Type} {doc : Document}

theorem runOn_bind (command : Command α) (next : α → Command β) :
    runOn (command >>= next) doc =
      match runOn command doc with
      | (.ok a, new) => runOn (next a) new
      | (.error e, new) => (.error e, new) := by
  simp only [runOn, ExceptT.run_bind, StateT.run_bind, Id.run_bind]
  rcases (StateT.run (ExceptT.run command) doc).run with ⟨_ | a, new⟩ <;> rfl

theorem runOn_get_bind (next : Document → Command β) :
    runOn (get >>= next) doc = runOn (next doc) doc :=
  rfl

theorem runOn_consult (f : Document → Except Error α) : runOn (consult f) doc = (f doc, doc) := by
  rw [consult, runOn_get_bind]
  cases f doc <;> rfl

theorem runOn_consult_bind (f : Document → Except Error α) (next : α → Command β) :
    runOn (consult f >>= next) doc =
      match f doc with
      | .ok a => runOn (next a) doc
      | .error e => (.error e, doc) := by
  rw [runOn_bind, runOn_consult]
  cases f doc <;> rfl

/-- What is answered from the document changes nothing, so a call that fails there leaves it. -/
theorem runOn_consult_bind_eq_outcome {f : Document → Except Error α} {next : α → Command Unit}
    {made : α → Except Error Document} (h : ∀ a, runOn (next a) doc = outcome doc (made a)) :
    runOn (consult f >>= next) doc = outcome doc (f doc >>= made) := by
  rw [runOn_consult_bind]
  cases f doc with
  | error e => rfl
  | ok a => exact h a

theorem runOn_append (parent child : NodeId) :
    runOn (append parent child) doc = outcome doc (doc.append parent child) :=
  runOn_consult_bind_eq_outcome fun _ => rfl

theorem runOn_insertBefore (reference child : NodeId) :
    runOn (insertBefore reference child) doc =
      outcome doc (doc.insertBefore reference child) := by
  unfold insertBefore Document.insertBefore
  split
  · rfl
  · exact runOn_consult_bind_eq_outcome fun parent => runOn_consult_bind_eq_outcome fun _ => rfl

theorem runOn_insertAfter (reference child : NodeId) :
    runOn (insertAfter reference child) doc = outcome doc (doc.insertAfter reference child) := by
  rw [insertAfter, runOn_get_bind, Document.insertAfter]
  cases doc.next reference with
  | some sibling => exact runOn_insertBefore sibling child
  | none => exact runOn_consult_bind_eq_outcome fun parent => runOn_append parent child

theorem runOn_prepend (parent child : NodeId) :
    runOn (prepend parent child) doc = outcome doc (doc.prepend parent child) := by
  rw [prepend, runOn_get_bind, Document.prepend]
  cases doc.firstChild parent with
  | some first => exact runOn_insertBefore first child
  | none => exact runOn_append parent child

theorem runOn_replace (old child : NodeId) :
    runOn (replace old child) doc = outcome doc (doc.replace old child) := by
  unfold replace Document.replace
  split
  · rfl
  · rw [runOn_bind, runOn_insertBefore]
    cases doc.insertBefore old child <;> rfl

theorem runOn_remove (id : NodeId) :
    runOn (remove id) doc = outcome doc (doc.remove id) := by
  unfold remove Document.remove
  rw [runOn_consult_bind]
  cases doc.contains id with
  | false => rfl
  | true => exact runOn_consult_bind_eq_outcome fun _ => rfl

/-- Looking through a batch changes nothing, so all of its edits are checked in one document. -/
theorem runOn_check (edits : List NamespaceEdit) :
    runOn (edits.forM fun edit => consult fun doc => edit.check doc) doc =
      (edits.forM (NamespaceEdit.check doc), doc) := by
  induction edits with
  | nil => rfl
  | cons edit edits ih =>
    rw [NamespaceEdit.forM_check_cons]
    change runOn (consult (fun doc => edit.check doc) >>= fun _ => _) doc = _
    rw [runOn_consult_bind]
    cases edit.check doc with
    | error e => rfl
    | ok => exact ih

theorem runOn_perform (edits : List NamespaceEdit) (doc : Document) :
    runOn (edits.forM fun edit => modify fun doc => edit.perform doc) doc =
      (.ok (), edits.foldl NamespaceEdit.perform doc) := by
  induction edits generalizing doc with
  | nil => rfl
  | cons edit edits ih => exact ih (edit.perform doc)

theorem runOn_edit (edits : List NamespaceEdit) :
    runOn (edit edits) doc =
      match doc.edit edits with
      | .ok (new, count) => (.ok count, new)
      | .error e => (.error e, doc) := by
  rw [edit, Document.edit, runOn_bind, runOn_check]
  cases edits.forM (NamespaceEdit.check doc) with
  | error e => rfl
  | ok =>
    dsimp only
    rw [runOn_bind, runOn_perform]
    rfl

theorem runOn_edit_eq_ok {edits : List NamespaceEdit} {count : Nat} {new : Document} :
    runOn (edit edits) doc = (.ok count, new) ↔ doc.edit edits = .ok (new, count) := by
  rw [runOn_edit]
  cases doc.edit edits <;> simp [Prod.ext_iff, and_comm]

theorem runOn_edit_eq_error {edits : List NamespaceEdit} {e : Error} {left : Document} :
    runOn (edit edits) doc = (.error e, left) ↔ doc.edit edits = .error e ∧ left = doc := by
  rw [runOn_edit]
  cases doc.edit edits <;> simp [eq_comm]

end Command

def Move.inPlace : Move → Command Unit
  | append parent child => .append parent child
  | prepend parent child => .prepend parent child
  | insertBefore reference child => .insertBefore reference child
  | insertAfter reference child => .insertAfter reference child
  | replace old child => .replace old child
  | remove child => .remove child
  | detach child => .detach child

/-- A move that is refused is so before it has changed anything. -/
theorem Move.runOn_inPlace (move : Move) (doc : Document) :
    Command.runOn move.inPlace doc = Command.outcome doc (move.change.make doc) := by
  cases move with
  | append parent child => exact Command.runOn_append parent child
  | prepend parent child => exact Command.runOn_prepend parent child
  | insertBefore reference child => exact Command.runOn_insertBefore reference child
  | insertAfter reference child => exact Command.runOn_insertAfter reference child
  | replace old child => exact Command.runOn_replace old child
  | remove child => exact Command.runOn_remove child
  | detach child => rfl

end MarkupQuery.Tree
