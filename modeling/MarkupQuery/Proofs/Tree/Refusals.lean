import MarkupQuery.Proofs.Tree.Commands

namespace MarkupQuery.Tree

namespace Document

/-- `child` cannot come to stand below `parent`: that has no children ever, or `child` is a document
node, or it is `parent` or above it. -/
def BarredBelow (doc : Document) (parent child : NodeId) : Prop :=
  (doc.payload parent).mayHaveChildren = false ∨ doc.payload child = .document ∨
    doc.Within parent child

/-- `child` cannot come to stand beside `reference`: that has no parent, or `child` is a document
node, or it is that parent or above it. -/
def BarredBeside (doc : Document) (reference child : NodeId) : Prop :=
  doc.parent reference = none ∨ doc.payload child = .document ∨
    ∃ parent, doc.parent reference = some parent ∧ doc.Within parent child

variable {doc : Document} {parent child reference old id : NodeId} {e : Error}

theorem requireParent_eq_error : (∃ e, doc.requireParent id = .error e) ↔ doc.parent id = none := by
  unfold requireParent
  cases doc.parent id <;> simp

theorem append_eq_error :
    doc.append parent child = .error e ↔ doc.checkInsertion parent child = .error e := by
  unfold Document.append
  cases doc.checkInsertion parent child <;> simp [bind, Except.bind, pure, Except.pure]

theorem insertBefore_eq_error (hne : reference ≠ child) :
    doc.insertBefore reference child = .error e ↔ doc.requireParent reference = .error e ∨
      ∃ parent, doc.parent reference = some parent ∧
        doc.checkInsertion parent child = .error e := by
  rw [Document.insertBefore, if_neg hne]
  unfold requireParent
  cases doc.parent reference with
  | none => simp [bind, Except.bind]
  | some parent =>
    cases hcheck : doc.checkInsertion parent child <;>
      simp [hcheck, bind, Except.bind, pure, Except.pure]

theorem replace_eq_error (hne : old ≠ child) :
    doc.replace old child = .error e ↔ doc.insertBefore old child = .error e := by
  rw [Document.replace, if_neg hne]
  cases doc.insertBefore old child <;> simp [bind, Except.bind, pure, Except.pure]

end Document

namespace Forest

open Document

variable {doc : Document} {kids : NodeId → List NodeId} {parent child reference old id : NodeId}
  (h : Forest doc kids)
include h

theorem exists_checkInsertion_eq_error (hp : parent < doc.size) (hc : child < doc.size) :
    (∃ e, doc.checkInsertion parent child = .error e) ↔ doc.BarredBelow parent child := by
  unfold checkInsertion BarredBelow
  rw [← h.mem_ancestors]
  simp only [contains, hp, hc, decide_true, Bool.not_true, Bool.false_eq_true, if_false,
    Bool.not_eq_true', beq_iff_eq, List.contains_eq_mem, decide_eq_true_eq]
  split_ifs with hinner hdocument habove <;> simp [*]

/-- A node that is below `parent` already can be put below it again. -/
theorem not_barredBelow_of_parent (hp : doc.parent child = some parent) :
    ¬ doc.BarredBelow parent child := by
  rintro (hleaf | hdocument | hw)
  · have hmem := (h.mem_kids child parent).mpr hp
    simp [h.leaf parent hleaf] at hmem
  · simp [h.document child hdocument] at hp
  · exact h.acyclic child (.head' hp hw)

/-- What can be put beside a node can be put below its parent. -/
theorem barredBeside_iff (hp : doc.parent reference = some parent) :
    doc.BarredBeside reference child ↔ doc.BarredBelow parent child := by
  have hinner : (doc.payload parent).mayHaveChildren = true := by
    by_contra hleaf
    have hmem := (h.mem_kids reference parent).mpr hp
    simp [h.leaf parent (by simpa using hleaf)] at hmem
  simp [BarredBeside, BarredBelow, hp, hinner]

theorem exists_append_eq_error (hp : parent < doc.size) (hc : child < doc.size) :
    (∃ e, doc.append parent child = .error e) ↔ doc.BarredBelow parent child := by
  simp only [append_eq_error, h.exists_checkInsertion_eq_error hp hc]

theorem exists_insertBefore_eq_error (hc : child < doc.size) (hne : reference ≠ child) :
    (∃ e, doc.insertBefore reference child = .error e) ↔ doc.BarredBeside reference child := by
  simp only [insertBefore_eq_error hne, exists_or, requireParent_eq_error]
  cases hp : doc.parent reference with
  | none => simp [BarredBeside, hp]
  | some parent =>
    rw [h.barredBeside_iff hp, ← h.exists_checkInsertion_eq_error (h.parent_lt hp) hc]
    simp

theorem exists_insertAfter_eq_error (hc : child < doc.size) :
    (∃ e, doc.insertAfter reference child = .error e) ↔ doc.BarredBeside reference child := by
  unfold Document.insertAfter
  cases hs : doc.next reference with
  | some sibling =>
    -- next siblings have the same parent, so what is in the way is the same
    have hsame := h.parent_of_next hs
    have hbeside : doc.BarredBeside sibling child ↔ doc.BarredBeside reference child := by
      simp only [BarredBeside, hsame]
    by_cases hne : sibling = child
    · subst hne
      cases hp : doc.parent sibling with
      | none => simp [(h.orphan reference (hsame.symm.trans hp)).2] at hs
      | some parent =>
        rw [← hbeside, h.barredBeside_iff hp]
        simp [Document.insertBefore, h.not_barredBelow_of_parent hp]
    · rw [← hbeside]
      exact h.exists_insertBefore_eq_error hc hne
  | none =>
    cases hp : doc.parent reference with
    | none => simp [requireParent, hp, BarredBeside, bind, Except.bind]
    | some parent =>
      rw [h.barredBeside_iff hp, ← h.exists_append_eq_error (h.parent_lt hp) hc]
      simp [requireParent, hp, bind, Except.bind]

theorem exists_prepend_eq_error (hp : parent < doc.size) (hc : child < doc.size) :
    (∃ e, doc.prepend parent child = .error e) ↔ doc.BarredBelow parent child := by
  unfold Document.prepend
  cases hf : doc.firstChild parent with
  | none => exact h.exists_append_eq_error hp hc
  | some first =>
    have hfirst : doc.parent first = some parent := by
      rw [h.firstChild_eq] at hf
      exact (h.mem_kids first parent).mp (List.mem_of_head? hf)
    by_cases hne : first = child
    -- a first child stays where it is, and is not barred there either
    · subst hne
      simp [Document.insertBefore, h.not_barredBelow_of_parent hfirst]
    · rw [← h.barredBeside_iff hfirst]
      exact h.exists_insertBefore_eq_error hc hne

theorem exists_replace_eq_error (hc : child < doc.size) (hne : old ≠ child) :
    (∃ e, doc.replace old child = .error e) ↔ doc.BarredBeside old child := by
  simp only [replace_eq_error hne, h.exists_insertBefore_eq_error hc hne]

theorem exists_remove_eq_error : (∃ e, doc.remove id = .error e) ↔ doc.parent id = none := by
  unfold Document.remove contains
  cases hp : doc.parent id with
  | none => split <;> simp [requireParent, hp, bind, Except.bind]
  | some parent =>
    simp [h.child_lt id parent hp, requireParent, hp, bind, Except.bind, pure, Except.pure]

end Forest

/-- In a reachable document a move is refused exactly if no tree would come of it. Below a node no
document node can be put, nor that node itself or one above it, and there can be nothing below a
node that is neither an element nor a document node; beside a node without parent nothing can be
put, and beside any other what can be put below its parent. A node without parent cannot be removed.
Carried out in place, a move that is refused leaves the document as it was. -/
theorem Document.Reachable.refused_iff {doc : Document} (h : doc.Reachable)
    {parent child reference : NodeId} (hp : parent < doc.size) (hc : child < doc.size) :
    ((∃ e, doc.append parent child = .error e) ↔ doc.BarredBelow parent child) ∧
    ((∃ e, doc.prepend parent child = .error e) ↔ doc.BarredBelow parent child) ∧
    (reference ≠ child →
      ((∃ e, doc.insertBefore reference child = .error e) ↔ doc.BarredBeside reference child) ∧
      ((∃ e, doc.replace reference child = .error e) ↔ doc.BarredBeside reference child)) ∧
    ((∃ e, doc.insertAfter reference child = .error e) ↔ doc.BarredBeside reference child) ∧
    ((∃ e, doc.remove reference = .error e) ↔ doc.parent reference = none) ∧
    ∀ move : Move,
      (∀ new, Command.runOn move.inPlace doc = (.ok (), new) ↔ move.change.make doc = .ok new) ∧
      ∀ e left, Command.runOn move.inPlace doc = (.error e, left) ↔
        move.change.make doc = .error e ∧ left = doc := by
  have hf := h.forest
  refine ⟨hf.exists_append_eq_error hp hc, hf.exists_prepend_eq_error hp hc,
    fun hne => ⟨hf.exists_insertBefore_eq_error hc hne, hf.exists_replace_eq_error hc hne⟩,
    hf.exists_insertAfter_eq_error hc, hf.exists_remove_eq_error, fun move => ?_⟩
  rw [Move.runOn_inPlace]
  cases move.change.make doc with
  | ok made => simp [Command.outcome]
  | error error => simp [Command.outcome, eq_comm]

def nestedThrice : Document := .ofMarkup "<r><a><b/></a></r>"

/-- The outermost element cannot be put below the innermost one, nor before it. The middle one can
be replaced by what is below it. -/
theorem refused_iff_nestedThrice : nestedThrice.Reachable ∧ 3 < nestedThrice.size ∧
    nestedThrice.BarredBelow 3 1 ∧ (∃ e, nestedThrice.append 3 1 = .error e) ∧
    nestedThrice.BarredBeside 3 1 ∧ (∃ e, nestedThrice.insertBefore 3 1 = .error e) ∧
    (∃ e, Command.runOn (Move.insertBefore 3 1).inPlace nestedThrice = (.error e, nestedThrice)) ∧
    ¬ nestedThrice.BarredBeside 2 3 := by
  have hvalues : (Document.parse "<r><a><b/></a></r>").isOk = true ∧ 3 < nestedThrice.size ∧
      nestedThrice.parent 3 = some 2 ∧ nestedThrice.parent 2 = some 1 ∧
      (nestedThrice.replace 2 3).isOk = true := by
    decide +kernel
  obtain ⟨hparse, hsize, h3, h2, hreplaced⟩ := hvalues
  have hreachable : nestedThrice.Reachable := .parse (Document.parse_ofMarkup hparse)
  have hbelow : nestedThrice.BarredBelow 3 1 := .inr (.inr (.head h3 (.single h2)))
  have hbeside : nestedThrice.BarredBeside 3 1 := .inr (.inr ⟨2, h3, .single h2⟩)
  obtain ⟨happend, -, hbefore, -, -, hrun⟩ :=
    Document.Reachable.refused_iff hreachable hsize (by omega : 1 < nestedThrice.size)
  obtain ⟨-, -, hreplace, -⟩ := Document.Reachable.refused_iff hreachable hsize hsize
  have hrefused := (hbefore (by decide)).1.mpr hbeside
  refine ⟨hreachable, hsize, hbelow, happend.mpr hbelow, hbeside, hrefused, ?_, fun hbarred => ?_⟩
  · obtain ⟨e, he⟩ := hrefused
    exact ⟨e, ((hrun (.insertBefore 3 1)).2 e nestedThrice).mpr ⟨he, rfl⟩⟩
  · obtain ⟨e, he⟩ := (hreplace (by decide)).2.mpr hbarred
    simp [he, Except.isOk, Except.toBool] at hreplaced

end MarkupQuery.Tree
