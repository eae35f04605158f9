import MarkupQuery.Proofs.Tree.Commands
import MarkupQuery.Proofs.Tree.Reachable

namespace MarkupQuery.Tree

open Document

/-- An element as namespace edits leave it: its name, and names and values of its attributes. -/
def Element.unqualified (e : Element) : Element where
  name := e.name
  attributes := e.attributes.map fun a => { name := a.name, value := a.value }

def Node.unqualified (n : Node) : Node :=
  { n with payload := n.payload.mapElement Element.unqualified }

theorem Document.ext_node {doc new : Document} (hs : new.size = doc.size)
    (h : ∀ id, new.node id = doc.node id) : new = doc := by
  obtain ⟨nodes⟩ := new
  obtain ⟨others⟩ := doc
  refine congrArg Document.mk (Array.ext hs fun id hnew hdoc => ?_)
  simpa [Document.node, Array.getD_eq_getD_getElem?, hnew, hdoc] using h id

namespace NamespaceEdit

variable {doc new : Document} {edit : NamespaceEdit} {edits : List NamespaceEdit} {e e' : Element}

/-- What an edit sets on its element; the rest of the element stays. The edit of an attribute finds
one at its index. -/
def Sets : NamespaceEdit → Element → Element → Prop
  | renameElement _ qualifier namespaceUri, e, e' => e' = { e with qualifier, namespaceUri }
  | renameAttribute _ index qualifier namespaceUri, e, e' =>
    ∃ before a after, e.attributes = before ++ a :: after ∧ before.length = index ∧
      e' = { e with attributes := before ++ { a with qualifier, namespaceUri } :: after }
  | declare _ qualifier uri, e, e' =>
    e' = { e with
      declarations := (e.declarations.filter (·.qualifier != qualifier)) ++ [⟨qualifier, uri⟩] }
  | undeclare _ qualifier, e, e' =>
    e' = { e with declarations := e.declarations.filter (·.qualifier != qualifier) }

/-- An edit is made: it is valid where it is made, its element is one and becomes what the edit sets,
and no other node changes. -/
structure Made (edit : NamespaceEdit) (doc new : Document) : Prop where
  valid : edit.check doc = .ok ()
  sets : ∃ e e', doc.element? edit.element = some e ∧ edit.Sets e e' ∧
    new.node edit.element = { doc.node edit.element with payload := .element e' }
  others : ∀ id, id ≠ edit.element → new.node id = doc.node id
  size_eq : new.size = doc.size

inductive Run : Document → List NamespaceEdit → Document → Prop
  | nil (doc : Document) : Run doc [] doc
  | cons {edit : NamespaceEdit} {edits : List NamespaceEdit} {doc mid new : Document}
    (first : edit.Made doc mid) (rest : Run mid edits new) : Run doc (edit :: edits) new

theorem check_eq_ok (h : edit.check doc = .ok ()) :
    ∃ e, doc.element? edit.element = some e ∧ edit.checkOn e = .ok () := by
  simp only [check] at h
  split at h
  · cases h
  split at h
  · cases h
  · rename_i e he
    refine ⟨e, he, ?_⟩
    cases hc : edit.checkOn e with
    | error reason => simp [hc, Except.mapError] at h
    | ok => rfl

theorem sets_onElement (h : edit.checkOn e = .ok ()) : edit.Sets e (edit.onElement e) := by
  cases edit with
  | renameElement id qualifier uri => rfl
  | renameAttribute id index qualifier uri =>
    have hindex : index < e.attributes.length := by
      simp only [checkOn] at h
      split at h
      · cases h
      · omega
    refine ⟨e.attributes.take index, e.attributes[index], e.attributes.drop (index + 1), ?_,
      List.length_take_of_le (Nat.le_of_lt hindex), ?_⟩
    · rw [← List.drop_eq_getElem_cons hindex, List.take_append_drop]
    · rw [onElement, List.modify_eq_take_cons_drop hindex]
  | declare id qualifier uri => rfl
  | undeclare id qualifier => rfl

theorem Sets.eq_onElement (h : edit.Sets e e') : e' = edit.onElement e := by
  cases edit with
  | renameElement id qualifier uri => exact h
  | renameAttribute id index qualifier uri =>
    obtain ⟨before, a, after, he, rfl, rfl⟩ := h
    rw [onElement, he, List.modify_eq_take_cons_drop (by simp)]
    simp
  | declare id qualifier uri => exact h
  | undeclare id qualifier => exact h

theorem length_attributes_onElement (edit : NamespaceEdit) (e : Element) :
    (edit.onElement e).attributes.length = e.attributes.length := by
  cases edit <;> simp [onElement]

/-- The check of an edit looks at no more of an element than how many attributes it has. -/
theorem checkOn_congr (edit : NamespaceEdit) (h : e.attributes.length = e'.attributes.length) :
    edit.checkOn e = edit.checkOn e' := by
  cases edit <;> simp [checkOn, h]

/-- No edit changes the outcome of the check of another. -/
theorem check_perform (doc : Document) (edit other : NamespaceEdit) :
    edit.check (other.perform doc) = edit.check doc := by
  have hin : (other.perform doc).contains edit.element = doc.contains edit.element := by
    simp only [contains, perform, size_updateElement]
  rw [check, check, hin, perform, element?_updateElement]
  by_cases hsame : edit.element = other.element
  · rw [if_pos hsame]
    cases doc.element? edit.element with
    | none => rfl
    | some e =>
      have hcheck := edit.checkOn_congr (length_attributes_onElement other e)
      simp only [Option.map_some, hcheck]
  · rw [if_neg hsame]

theorem made_perform (h : edit.check doc = .ok ()) : edit.Made doc (edit.perform doc) where
  valid := h
  sets := by
    obtain ⟨e, he, hcheck⟩ := check_eq_ok h
    refine ⟨e, edit.onElement e, he, sets_onElement hcheck, ?_⟩
    rw [perform, node_updateElement, if_pos rfl, element?_eq_some.mp he, Payload.mapElement]
  others id hid := by rw [perform, node_updateElement, if_neg hid, payload]
  size_eq := size_updateElement ..

theorem Made.eq_perform (h : edit.Made doc new) : new = edit.perform doc := by
  obtain ⟨e, e', he, hsets, hnode⟩ := h.sets
  refine ext_node (h.size_eq.trans (size_updateElement ..).symm) fun id => ?_
  rw [perform, node_updateElement]
  by_cases hid : id = edit.element
  · rw [hid, if_pos rfl, hnode, element?_eq_some.mp he, Payload.mapElement, hsets.eq_onElement]
  · rw [if_neg hid, h.others id hid, payload]

/-- An edit keeps what it is not about: links, names, values and all that is no element. -/
theorem Made.unqualified_eq (h : edit.Made doc new) (id : NodeId) :
    (new.node id).unqualified = (doc.node id).unqualified := by
  by_cases hid : id = edit.element
  · obtain ⟨e, e', he, hsets, hnode⟩ := h.sets
    have hpayload : (doc.node id).payload = .element e := hid ▸ element?_eq_some.mp he
    have he' : e'.unqualified = e.unqualified := by
      cases edit with
      | renameAttribute _ _ _ _ =>
        obtain ⟨before, a, after, hattributes, -, rfl⟩ := hsets
        simp [Element.unqualified, hattributes]
      | renameElement _ _ _ | declare _ _ _ | undeclare _ _ =>
        rw [hsets]
        rfl
    rw [← hid] at hnode
    simp only [hnode, Node.unqualified, hpayload, Payload.mapElement, he']
  · rw [h.others id hid]

/-- What is valid before an edit is valid after it, so a checked batch runs to its end. -/
theorem run_of_check (h : ∀ edit ∈ edits, edit.check doc = .ok ()) :
    Run doc edits (edits.foldl perform doc) := by
  induction edits generalizing doc with
  | nil => exact .nil doc
  | cons edit edits ih =>
    obtain ⟨hfirst, hrest⟩ := List.forall_mem_cons.mp h
    refine .cons (made_perform hfirst) (ih fun other ho => ?_)
    rw [check_perform]
    exact hrest other ho

theorem Run.eq_foldl (h : Run doc edits new) : new = edits.foldl perform doc := by
  induction h with
  | nil => rfl
  | cons first _ ih => rw [ih, first.eq_perform, List.foldl_cons]

theorem Run.size_eq (h : Run doc edits new) : new.size = doc.size := by
  induction h with
  | nil => rfl
  | cons first _ ih => rw [ih, first.size_eq]

theorem Run.unqualified_eq (h : Run doc edits new) (id : NodeId) :
    (new.node id).unqualified = (doc.node id).unqualified := by
  induction h with
  | nil => rfl
  | cons first _ ih => rw [ih, first.unqualified_eq]

end NamespaceEdit

open NamespaceEdit

/-- A batch that is carried out in place ends well exactly if each of its edits is valid in the
document that it is given. Then they are made one after the other, none being left out, and counted.
Otherwise it ends with the error of its first invalid edit and leaves the document as it was. Either
way links, names and values stay. -/
theorem edit_all_or_none (doc : Document) (edits : List NamespaceEdit) :
    ((∃ count new, Command.runOn (.edit edits) doc = (.ok count, new)) ↔
      ∀ edit ∈ edits, edit.check doc = .ok ()) ∧
    (∀ count new, Command.runOn (.edit edits) doc = (.ok count, new) ↔
      (∀ edit ∈ edits, edit.check doc = .ok ()) ∧ Run doc edits new ∧ count = edits.length) ∧
    (∀ error left, Command.runOn (.edit edits) doc = (.error error, left) ↔
      (∃ before edit after, edits = before ++ edit :: after ∧
        (∀ earlier ∈ before, earlier.check doc = .ok ()) ∧ edit.check doc = .error error) ∧
      left = doc) ∧
    (∀ count new, doc.edit edits = .ok (new, count) ↔
      Command.runOn (.edit edits) doc = (.ok count, new)) ∧
    (∀ error, doc.edit edits = .error error ↔
      Command.runOn (.edit edits) doc = (.error error, doc)) ∧
    (Change.edit edits).apply doc = (Command.runOn (.edit edits) doc).2 ∧
    (Command.runOn (.edit edits) doc).2.size = doc.size ∧
    ∀ id, ((Command.runOn (.edit edits) doc).2.node id).unqualified = (doc.node id).unqualified := by
  have hmade (count new) : Command.runOn (.edit edits) doc = (.ok count, new) ↔
      (∀ edit ∈ edits, edit.check doc = .ok ()) ∧ Run doc edits new ∧ count = edits.length := by
    rw [Command.runOn_edit_eq_ok, edit_eq_ok]
    constructor
    · rintro ⟨hall, rfl, hcount⟩
      exact ⟨hall, run_of_check hall, hcount⟩
    · rintro ⟨hall, hrun, hcount⟩
      exact ⟨hall, hrun.eq_foldl, hcount⟩
  have hrefused (error left) : Command.runOn (.edit edits) doc = (.error error, left) ↔
      (∃ before edit after, edits = before ++ edit :: after ∧
        (∀ earlier ∈ before, earlier.check doc = .ok ()) ∧ edit.check doc = .error error) ∧
      left = doc := by
    rw [Command.runOn_edit_eq_error, edit_eq_error, forM_check_eq_error]
  have hleft : (Command.runOn (.edit edits) doc).2 = doc ∨
      Run doc edits (Command.runOn (.edit edits) doc).2 := by
    rcases hrun : Command.runOn (.edit edits) doc with ⟨error | count, left⟩
    · exact .inl ((hrefused error left).mp hrun).2
    · exact .inr ((hmade count left).mp hrun).2.1
  refine ⟨⟨?_, fun hall => ⟨_, _, (hmade _ _).mpr ⟨hall, run_of_check hall, rfl⟩⟩⟩, hmade, hrefused,
    fun count new => Command.runOn_edit_eq_ok.symm, fun error => ?_, ?_, ?_, ?_⟩
  · rintro ⟨count, new, hrun⟩
    exact ((hmade count new).mp hrun).1
  · simp [Command.runOn_edit_eq_error]
  · rw [Command.runOn_edit, Change.apply, Change.make]
    cases doc.edit edits <;> rfl
  · obtain hsame | hrun := hleft
    · rw [hsame]
    · exact hrun.size_eq
  · obtain hsame | hrun := hleft
    · exact fun id => by rw [hsame]
    · exact hrun.unqualified_eq

end MarkupQuery.Tree
