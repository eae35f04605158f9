import MarkupQuery.Proofs.Tree.Preorder
import MarkupQuery.Proofs.Tree.Reachable

namespace MarkupQuery.Tree

namespace Document

/-- The way up from a node that has nothing left below it: to the first next sibling of the node or
of one above it, and no further than to `top`. -/
inductive Climbs (doc : Document) (top : NodeId) : NodeId → Option NodeId → Prop
  | arrived : Climbs doc top top none
  | across {id sibling : NodeId} (hne : id ≠ top) (hs : doc.next id = some sibling) :
    Climbs doc top id (some sibling)
  | out {id : NodeId} (hne : id ≠ top) (hs : doc.next id = none) (hp : doc.parent id = none) :
    Climbs doc top id none
  | up {id parent : NodeId} {found : Option NodeId} (hne : id ≠ top) (hs : doc.next id = none)
    (hp : doc.parent id = some parent) (h : Climbs doc top parent found) : Climbs doc top id found

/-- What the walk below `top` hands out from `start` until it ends: a node, then what comes from its
first child, or without one from where the way up leads. -/
inductive Yields (doc : Document) (top : NodeId) : Option NodeId → List NodeId → Prop
  | done : Yields doc top none []
  | down {id child : NodeId} {ids : List NodeId} (hc : doc.firstChild id = some child)
    (h : Yields doc top (some child) ids) : Yields doc top (some id) (id :: ids)
  | onward {id : NodeId} {found : Option NodeId} {ids : List NodeId}
    (hc : doc.firstChild id = none) (hup : doc.Climbs top id found)
    (h : Yields doc top found ids) : Yields doc top (some id) (id :: ids)

variable {doc : Document} {top id : NodeId} {start found found' : Option NodeId}
  {ids ids' : List NodeId}

theorem Climbs.unique (h : doc.Climbs top id found) (h' : doc.Climbs top id found') :
    found = found' := by
  induction h with
  | arrived =>
    cases h' with
    | arrived => rfl
    | across hne | out hne | up hne => exact absurd rfl hne
  | across hne hs =>
    cases h' with
    | arrived => exact absurd rfl hne
    | across _ hs' => exact hs.symm.trans hs'
    | out _ hs' | up _ hs' => simp [hs] at hs'
  | out hne hs hp =>
    cases h' with
    | arrived | out => rfl
    | across _ hs' => simp [hs] at hs'
    | up _ _ hp' => simp [hp] at hp'
  | up hne hs hp _ ih =>
    cases h' with
    | arrived => exact absurd rfl hne
    | across _ hs' => simp [hs] at hs'
    | out _ _ hp' => simp [hp] at hp'
    | up _ _ hp' h' =>
      obtain rfl := Option.some.inj (hp.symm.trans hp')
      exact ih h'

theorem Yields.unique (h : doc.Yields top start ids) (h' : doc.Yields top start ids') :
    ids = ids' := by
  induction h generalizing ids' with
  | done =>
    cases h'
    rfl
  | down hc _ ih =>
    cases h' with
    | down hc' h' =>
      obtain rfl := Option.some.inj (hc.symm.trans hc')
      rw [ih h']
    | onward hc' => simp [hc] at hc'
  | onward hc hup _ ih =>
    cases h' with
    | down hc' => simp [hc] at hc'
    | onward _ hup' h' =>
      obtain rfl := hup.unique hup'
      rw [ih h']

end Document

namespace Forest

open Document

variable {doc : Document} {kids : NodeId → List NodeId}

/-- The way up ends, since a node has only finitely many above it, and it ends where the walk goes
on. -/
theorem climbs_after (h : Forest doc kids) (top id : NodeId) :
    doc.Climbs top id (doc.after top id) := by
  have hleads := h.leads_ancestors id
  -- by induction on the nodes above, of which there is one less from the parent
  generalize doc.ancestors id = above at hleads
  induction above generalizing id with
  | nil => simp [Leads] at hleads
  | cons x above ih =>
    obtain ⟨hx, hleads⟩ := hleads
    obtain rfl := Option.some.inj hx
    by_cases hne : id = top
    · rw [hne, after_top]
      exact .arrived
    cases hp : doc.parent id with
    | none =>
      have hs := (h.orphan id hp).2
      have hafter : doc.after top id = none := by
        rw [Document.after, afterSubtree, if_neg hne, hs, hp]
        rfl
      rw [hafter]
      exact .out hne hs hp
    | some parent =>
      rw [h.after_eq hp hne]
      rw [hp] at hleads
      cases hs : doc.next id with
      | some sibling => exact .across hne hs
      | none => exact .up hne hs hp (ih parent hleads)

theorem yields_of_leads (h : Forest doc kids) {top : NodeId} {start : Option NodeId}
    {ids : List NodeId} (hl : Leads (doc.preorderNext top) start ids none) :
    doc.Yields top start ids := by
  -- by induction on what is still to be handed out
  induction ids generalizing start with
  | nil =>
    subst hl
    exact .done
  | cons id ids ih =>
    obtain ⟨rfl, hl⟩ := hl
    cases hc : doc.firstChild id with
    | some child =>
      rw [preorderNext, hc] at hl
      exact .down hc (ih hl)
    | none =>
      rw [preorderNext, hc] at hl
      exact .onward hc (h.climbs_after top id) (ih hl)

theorem yields_descendants (h : Forest doc kids) (top : NodeId) :
    doc.Yields top (doc.firstChild top) (doc.descendants top) := by
  obtain ⟨-, hleads⟩ := (h.walked top).leads top .refl
  rw [h.preorderNext_eq, after_top, Option.or_none, ← h.firstChild_eq] at hleads
  exact h.yields_of_leads hleads

end Forest

/-- The walk below any node of a reachable document ends. It hands out each child of the node with
all that is below it, one child after the other, each node that is below the given one once and no
other node. -/
theorem Document.Reachable.yields_iff {doc : Document} (h : doc.Reachable) (top : NodeId) :
    (∀ ids, doc.Yields top (doc.firstChild top) ids ↔ ids = doc.descendants top) ∧
    (doc.descendants top =
      (doc.children top).flatMap fun child => child :: doc.descendants child) ∧
    (∀ id, doc.Below id top → (doc.descendants top).count id = 1) ∧
    ∀ id ∈ doc.descendants top, doc.Below id top := by
  have hf := h.forest
  have hyields := hf.yields_descendants top
  refine ⟨fun ids => ⟨fun hids => hids.unique hyields, fun hids => hids ▸ hyields⟩,
    hf.descendants_eq top, fun id hid => ?_, fun id hid => hf.mem_descendants.mp hid⟩
  have hnodup : (doc.descendants top).Nodup := (hf.nodup_subtree top).of_cons
  exact List.count_eq_one_of_mem hnodup (hf.mem_descendants.mpr hid)

def followed : Document := .ofMarkup "<r><a><b/></a><c/></r>"

/-- The walk below the first element stops in front of its next sibling. -/
theorem yields_iff_followed : followed.Reachable ∧ followed.next 2 = some 4 ∧
    followed.Yields 2 (followed.firstChild 2) [3] ∧ (followed.descendants 2).count 3 = 1 ∧
    ¬ followed.Below 4 2 := by
  have hvalues : (Document.parse "<r><a><b/></a><c/></r>").isOk = true ∧
      followed.next 2 = some 4 ∧ followed.parent 3 = some 2 ∧ followed.descendants 2 = [3] := by
    decide +kernel
  obtain ⟨hparse, hnext, hparent, hbelow⟩ := hvalues
  have hreachable : followed.Reachable := .parse (Document.parse_ofMarkup hparse)
  obtain ⟨hyields, -, hcount, hmem⟩ := Document.Reachable.yields_iff hreachable 2
  refine ⟨hreachable, hnext, (hyields [3]).mpr hbelow.symm, hcount 3 (.single hparent), fun h4 => ?_⟩
  have h4' := hreachable.forest.mem_descendants.mpr h4
  simp [hbelow] at h4'

end MarkupQuery.Tree
