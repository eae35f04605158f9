import MarkupQuery.Proofs.Tree.Growth

namespace MarkupQuery.Tree

open Document

namespace NamespaceEdit

variable {doc : Document} {edits : List NamespaceEdit} {x : NodeId}

def onElementAll (edits : List NamespaceEdit) (e : Element) : Element :=
  edits.foldl (fun e edit => edit.onElement e) e

theorem onElementAll_append (edits more : List NamespaceEdit) (e : Element) :
    onElementAll (edits ++ more) e = onElementAll more (onElementAll edits e) :=
  List.foldl_append

abbrev editsAt (x : NodeId) (edits : List NamespaceEdit) : List NamespaceEdit :=
  edits.filter fun edit => edit.element == x

theorem editsAt_cons (x : NodeId) (edit : NamespaceEdit) (edits : List NamespaceEdit) :
    editsAt x (edit :: edits) =
      if x = edit.element then edit :: editsAt x edits else editsAt x edits := by
  rw [editsAt, List.filter_cons]
  simp only [beq_iff_eq, eq_comm (a := edit.element)]

/-- After a batch every node has the links that it had, and its element was changed by the edits
for it. -/
theorem node_perform (doc : Document) (edits : List NamespaceEdit) (x : NodeId) :
    (edits.foldl perform doc).node x = { doc.node x with
      payload := (doc.payload x).mapElement (onElementAll (editsAt x edits)) } := by
  induction edits generalizing doc with
  | nil => exact congrArg (fun payload => { doc.node x with payload }) (Payload.mapElement_id _).symm
  | cons edit edits ih =>
    rw [List.foldl_cons, ih]
    have hnode : (perform doc edit).node x = { doc.node x with
        payload := if x = edit.element then (doc.payload x).mapElement edit.onElement
          else doc.payload x } := node_updateElement doc edit.element x edit.onElement
    rw [Document.payload, hnode]
    by_cases hx : x = edit.element
    · rw [if_pos hx, editsAt_cons, if_pos hx]
      exact congrArg (fun payload => { doc.node x with payload })
        (Payload.mapElement_mapElement _ _ _)
    · rw [if_neg hx, editsAt_cons, if_neg hx]

theorem sameLinks_perform (doc : Document) (edits : List NamespaceEdit) :
    doc.SameLinks (edits.foldl perform doc) := .of_node (node_perform doc edits)

@[simp] theorem size_perform (doc : Document) (edits : List NamespaceEdit) :
    (edits.foldl perform doc).size = doc.size := by
  induction edits generalizing doc with
  | nil => rfl
  | cons edit edits ih => rw [List.foldl_cons, ih, perform, size_updateElement]

/-- Where the edits are given place by place, those for one place are those that it gives. -/
theorem editsAt_flatMap {ids : List NodeId} (hn : ids.Nodup) {f : NodeId → List NamespaceEdit}
    (hf : ∀ id, ∀ edit ∈ f id, edit.element = id) (x : NodeId) :
    editsAt x (ids.flatMap f) = if x ∈ ids then f x else [] := by
  have hown : editsAt x (f x) = f x :=
    List.filter_eq_self.mpr fun edit he => beq_iff_eq.mpr (hf x edit he)
  have hother : ∀ id, id ≠ x → editsAt x (f id) = [] := by
    intro id hne
    rw [editsAt, List.filter_eq_nil_iff]
    intro edit he hx
    exact hne ((hf id edit he).symm.trans (beq_iff_eq.mp hx))
  induction ids with
  | nil => rfl
  | cons id ids ih =>
    obtain ⟨hnew, hrest⟩ := List.nodup_cons.mp hn
    rw [List.flatMap_cons, editsAt, List.filter_append]
    change editsAt x (f id) ++ editsAt x (ids.flatMap f) = _
    rw [ih hrest]
    by_cases hx : id = x
    · subst hx
      rw [hown, if_neg hnew, if_pos (List.mem_cons_self ..), List.append_nil]
    · rw [hother id hx, List.nil_append]
      simp [Ne.symm hx]

theorem forM_check_cons (doc : Document) (edit : NamespaceEdit) (edits : List NamespaceEdit) :
    (edit :: edits).forM (check doc) =
      match edit.check doc with
      | .ok () => edits.forM (check doc)
      | .error error => .error error := by
  change (do edit.check doc; edits.forM (check doc)) = _
  cases edit.check doc <;> rfl

theorem forM_check_eq_ok :
    edits.forM (check doc) = .ok () ↔ ∀ edit ∈ edits, edit.check doc = .ok () := by
  induction edits with
  | nil => simp [pure, Except.pure]
  | cons edit edits ih =>
    rw [forM_check_cons, List.forall_mem_cons]
    cases edit.check doc with
    | error error => simp
    | ok => exact ih.trans (by simp)

/-- A batch that is refused has a first edit that is invalid. -/
theorem forM_check_eq_error {error : Error} : edits.forM (check doc) = .error error ↔
    ∃ before edit after, edits = before ++ edit :: after ∧
      (∀ earlier ∈ before, earlier.check doc = .ok ()) ∧ edit.check doc = .error error := by
  induction edits with
  | nil => simp [pure, Except.pure]
  | cons first rest ih =>
    rw [forM_check_cons]
    constructor
    · cases hf : first.check doc with
      | error reason =>
        rintro ⟨⟩
        exact ⟨[], first, rest, rfl, by simp, hf⟩
      | ok =>
        intro h
        obtain ⟨before, edit, after, rfl, hbefore, hedit⟩ := ih.mp h
        exact ⟨first :: before, edit, after, rfl, List.forall_mem_cons.mpr ⟨hf, hbefore⟩, hedit⟩
    · rintro ⟨before, edit, after, hsplit, hbefore, hedit⟩
      cases before with
      | nil =>
        obtain ⟨rfl, rfl⟩ := List.cons.inj hsplit
        rw [hedit]
      | cons earlier before =>
        obtain ⟨rfl, rfl⟩ := List.cons.inj hsplit
        obtain ⟨hfirst, hearlier⟩ := List.forall_mem_cons.mp hbefore
        rw [hfirst]
        exact ih.mpr ⟨before, edit, after, rfl, hearlier, hedit⟩

/-- A batch is made if every edit of it can be made. -/
theorem edit_eq_ok {new : Document} {count : Nat} : doc.edit edits = .ok (new, count) ↔
    (∀ edit ∈ edits, edit.check doc = .ok ()) ∧
      new = edits.foldl perform doc ∧ count = edits.length := by
  rw [Document.edit, ← forM_check_eq_ok]
  cases edits.forM (check doc) <;>
    simp [bind, Except.bind, pure, Except.pure, eq_comm]

theorem edit_of_check (h : ∀ edit ∈ edits, edit.check doc = .ok ()) :
    doc.edit edits = .ok (edits.foldl perform doc, edits.length) :=
  edit_eq_ok.mpr ⟨h, rfl, rfl⟩

theorem edit_eq_error {error : Error} :
    doc.edit edits = .error error ↔ edits.forM (check doc) = .error error := by
  rw [Document.edit]
  cases edits.forM (check doc) <;> simp [bind, Except.bind, pure, Except.pure]

theorem check_of_checkOn {edit : NamespaceEdit} {e : Element} (hid : edit.element < doc.size)
    (he : doc.element? edit.element = some e) (h : edit.checkOn e = .ok ()) :
    edit.check doc = .ok () := by
  have hin : doc.contains edit.element = true := decide_eq_true hid
  rw [check, hin, he]
  simp only [Bool.not_true, Bool.false_eq_true, if_false]
  rw [h]
  rfl

end NamespaceEdit

end MarkupQuery.Tree
