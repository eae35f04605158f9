import MarkupQuery.Proofs.Query.Axes
import MarkupQuery.Proofs.Query.Steps
import MarkupQuery.Proofs.Tree.Reachable

namespace MarkupQuery.Query

open MarkupQuery.Tree MarkupQuery.Tree.Document

/-- Sites in document order, with the document node, that no axis leads out of. From each of them a
forward axis lists its sites in the same order. -/
structure Ranked.Closed (source : Ranked) (every : List Site) : Prop where
  inOrder : source.InOrder every
  sublist : ∀ axis : Axis, axis.isReverse = false → ∀ site ∈ every,
    (axis.sites source.document site).Sublist every
  subset : ∀ axis : Axis, ∀ site ∈ every, axis.sites source.document site ⊆ every
  document : Site.document ∈ every

theorem closed_all {source : Ranked} {kids : NodeId → List NodeId}
    (h : Forest source.document kids) : source.Closed (Site.all source.document) where
  inOrder := Site.inOrder_all h
  sublist := fun _ ha _ hs => sites_sublist h h.parent_root ha hs
  subset := fun axis _ hs => sites_subset h h.parent_root axis hs
  document := Site.node_mem_all h .refl

variable {s : Setting} {focus : Focus} {kids : NodeId → List NodeId}
  {every sites found : List Site}

theorem length_le_one_of_forall₂ {α β : Type} {r : α → β → Prop} {as : List α} {bs : List β}
    (h : List.Forall₂ r as bs) (hb : ¬ bs.length > 1) :
    (as = [] ∧ bs = []) ∨ ∃ a b, as = [a] ∧ bs = [b] ∧ r a b := by
  cases h with
  | nil => exact .inl ⟨rfl, rfl⟩
  | cons hab hrest =>
    cases hrest with
    | nil => exact .inr ⟨_, _, rfl, rfl, hab⟩
    | cons _ _ => simp at hb

/-- Only `id` makes a node-set. -/
theorem nodes_of_callFunction {name : String} {arguments : List Value}
    (hc : callFunction s.source s.root focus name arguments = .ok (.nodes sites)) :
    ∃ value, sites = elementsById s.source s.root value := by
  unfold callFunction at hc
  split at hc
  · rename_i function _ arity _
    unfold CoreFunction.apply at hc
    split at hc
    case h_4 value _ => exact ⟨value, by simpa [eq_comm] using hc⟩
    all_goals simp [map_eq_ok, Value.text, Value.boolean, Value.number, besides] at hc
  · simp at hc

/-- Only a union makes a node-set, of two others. -/
theorem nodes_of_operator {op : BinaryOp} {left right : Value}
    (ho : op.apply s.source left right = .ok (.nodes sites)) :
    ∃ lefts rights, left = .nodes lefts ∧ right = .nodes rights ∧
      sites = s.source.ordered (lefts ++ rights) := by
  unfold BinaryOp.apply at ho
  cases op with
  | union =>
    cases left <;> cases right <;> simp [merge] at ho
    exact ⟨_, _, rfl, rfl, ho.symm⟩
  | _ => simp [Value.boolean, Value.number] at ho

namespace Ranked.Closed

theorem ordered_sublist (hc : s.source.Closed every) (hs : sites ⊆ every) :
    (s.source.ordered sites).Sublist every := by
  refine Ranked.sublist_of_inOrder (Ranked.inOrder_ordered _ _) hc.inOrder fun t ht => ?_
  exact hs ((Ranked.mem_ordered t sites).mp ht)

theorem ordered_eq_of_sublist (hc : s.source.Closed every) (hs : sites.Sublist every) :
    s.source.ordered sites = sites :=
  Ranked.ordered_eq_self (hc.inOrder.sublist hs)

/-- What is found on a forward axis from one site is in order before it is merged. -/
theorem mergeFound_eq (hc : s.source.Closed every) (hs : sites ⊆ every) {axis : Axis}
    {test : ResolvedTest} {predicates : List Expr} {lists : List (List Site)}
    (hf : List.Forall₂ (fun site one => foundFrom s axis test predicates site = .ok one)
      sites lists) : mergeFound s.source axis lists = s.source.ordered lists.flatten := by
  unfold mergeFound
  split
  · rfl
  · rename_i hcondition
    obtain ⟨hlength, hforward⟩ : ¬ lists.length > 1 ∧ axis.isReverse = false := by
      simpa using hcondition
    rcases length_le_one_of_forall₂ hf hlength with ⟨-, rfl⟩ | ⟨site, one, rfl, rfl, hone⟩
    · rfl
    · have hsite : site ∈ every := hs (by simp)
      have hsublist := (foundFrom_sublist hone).trans (hc.sublist axis hforward site hsite)
      rw [List.flatten_singleton, hc.ordered_eq_of_sublist hsublist]

theorem flatten_subset (hc : s.source.Closed every) (hs : sites ⊆ every) {axis : Axis}
    {test : ResolvedTest} {predicates : List Expr} {lists : List (List Site)}
    (hf : List.Forall₂ (fun site one => foundFrom s axis test predicates site = .ok one)
      sites lists) : lists.flatten ⊆ every := by
  induction hf with
  | nil => simp
  | cons hone _ ih =>
    obtain ⟨hsite, hrest⟩ := List.cons_subset.mp hs
    rw [List.flatten_cons, List.append_subset]
    exact ⟨List.Subset.trans (foundFrom_sublist hone).subset (hc.subset _ _ hsite), ih hrest⟩

theorem takeStep_sublist (hc : s.source.Closed every) {step : Step} (hs : sites ⊆ every)
    (ht : takeStep s step sites = .ok found) : found.Sublist every := by
  obtain ⟨axis, test, predicates⟩ := step
  obtain ⟨resolved, lists, -, hf, rfl⟩ := takeStep_eq_ok.mp ht
  rw [hc.mergeFound_eq hs hf]
  exact hc.ordered_sublist (hc.flatten_subset hs hf)

theorem takeSteps_sublist (hc : s.source.Closed every) {steps : List Step}
    (hs : sites.Sublist every) (ht : takeSteps s steps sites = .ok found) :
    found.Sublist every := by
  induction steps generalizing sites with
  | nil =>
    rw [takeSteps_nil, Except.ok.injEq] at ht
    exact ht ▸ hs
  | cons step rest ih =>
    rw [takeSteps_cons, bind_eq_ok] at ht
    obtain ⟨middle, hmiddle, hrest⟩ := ht
    exact ih (hc.takeStep_sublist hs.subset hmiddle) hrest

theorem elementsById_sublist (hc : s.source.Closed every) (hr : s.root = .document)
    (value : Value) : (elementsById s.source s.root value).Sublist every := by
  refine hc.ordered_sublist (List.Subset.trans List.filter_sublist.subset ?_)
  rw [hr]
  exact hc.subset .descendant _ hc.document

/-- A node-set leaves sites out of a list that no axis leads out of. -/
theorem evaluate_sublist (hc : s.source.Closed every) (hr : s.root = .document)
    (hf : focus.site ∈ every) :
    ∀ {e : Expr} {sites : List Site}, evaluate s focus e = .ok (.nodes sites) →
      sites.Sublist every
  | .literal _, _, he => by simp [evaluate, Value.text] at he
  | .number _, _, he => by simp [evaluate, Value.number] at he
  | .relative steps, sites, he => by
    simp only [evaluate, map_eq_ok, Value.nodes.injEq] at he
    obtain ⟨found, hfound, rfl⟩ := he
    exact hc.takeSteps_sublist (List.singleton_sublist.mpr hf) hfound
  | .absolute steps, sites, he => by
    simp only [evaluate, map_eq_ok, Value.nodes.injEq] at he
    obtain ⟨found, hfound, rfl⟩ := he
    have hroot : s.root ∈ every := hr ▸ hc.document
    exact hc.takeSteps_sublist (List.singleton_sublist.mpr hroot) hfound
  | .continued start steps, sites, he => by
    simp only [evaluate, bind_eq_ok] at he
    obtain ⟨value, hvalue, he⟩ := he
    cases value with
    | nodes starts =>
      simp only [map_eq_ok, Value.nodes.injEq] at he
      obtain ⟨found, hfound, rfl⟩ := he
      exact hc.takeSteps_sublist (hc.evaluate_sublist hr hf hvalue) hfound
    | scalar value => simp at he
  | .call name arguments, sites, he => by
    simp only [evaluate, bind_eq_ok] at he
    obtain ⟨values, -, hcall⟩ := he
    -- the only function with nodes as its value is the search for ids
    obtain ⟨value, rfl⟩ := nodes_of_callFunction hcall
    exact hc.elementsById_sublist hr value
  | .binary op left right, sites, he => by
    simp only [evaluate, bind_eq_ok] at he
    obtain ⟨_, hleft, _, hright, hop⟩ := he
    -- the only operator with nodes as its value is the union
    obtain ⟨lefts, rights, rfl, rfl, rfl⟩ := nodes_of_operator hop
    have hlefts := hc.evaluate_sublist hr hf hleft
    have hrights := hc.evaluate_sublist hr hf hright
    exact hc.ordered_sublist (List.append_subset.mpr ⟨hlefts.subset, hrights.subset⟩)
  | .negate operand, sites, he => by
    simp [evaluate, bind_eq_ok, pure, Except.pure, Value.number] at he
  | .filter operand predicates, sites, he => by
    simp only [evaluate, bind_eq_ok] at he
    obtain ⟨value, hvalue, he⟩ := he
    cases value with
    | nodes operands =>
      simp only [map_eq_ok, Value.nodes.injEq] at he
      obtain ⟨kept, hkept, rfl⟩ := he
      have hoperands := (hc.evaluate_sublist hr hf hvalue).subset
      exact (keepAll_sublist hkept).trans (hc.ordered_sublist hoperands)
    | scalar value => simp at he

end Ranked.Closed

/-- A node-set leaves sites out of the list of all attached sites in document order. -/
theorem evaluate_sublist (h : Forest s.source.document kids) (hr : s.root = .document)
    (hf : focus.site ∈ Site.all s.source.document) {e : Expr}
    (he : evaluate s focus e = .ok (.nodes sites)) : sites.Sublist (Site.all s.source.document) :=
  (closed_all h).evaluate_sublist hr hf he

/-- A step that puts what it finds in order whatever the axis is and how many sites it is taken
from. -/
def takeStepOrdered (s : Setting) : Step → List Site → Except Error (List Site)
  | .mk axis test predicates, sites => do
    let test ← test.resolve s.bindings
    let found ← sites.mapM (foundFrom s axis test predicates)
    pure (s.source.ordered found.flatten)

theorem takeStep_eq_takeStepOrdered (h : Forest s.source.document kids) (step : Step)
    (hs : sites ⊆ Site.all s.source.document) :
    takeStep s step sites = takeStepOrdered s step sites := by
  obtain ⟨axis, test, predicates⟩ := step
  rw [takeStep_eq, takeStepOrdered]
  cases test.resolve s.bindings with
  | error e => rfl
  | ok resolved =>
    cases hfound : sites.mapM (foundFrom s axis resolved predicates) with
    | error e => simp [bind, Except.bind, hfound]
    | ok lists =>
      simp only [bind, Except.bind, hfound]
      rw [(closed_all h).mergeFound_eq hs (mapM_eq_ok.mp hfound)]

/-- Evaluated at an attached site of a reachable document, every node-set is strictly increasing in
document order and contains attached sites only, and no step needs more sorting than it does. -/
theorem nodes_in_document_order (hd : s.source.document.Reachable) (hr : s.root = .document)
    (hf : focus.site ∈ Site.all s.source.document) :
    (∀ e sites, evaluate s focus e = .ok (.nodes sites) →
      s.source.InOrder sites ∧ sites.Sublist (Site.all s.source.document)) ∧
    ∀ step sites, sites ⊆ Site.all s.source.document →
      takeStep s step sites = takeStepOrdered s step sites := by
  have h := hd.forest
  refine ⟨fun e sites he => ?_, fun step sites hs => takeStep_eq_takeStepOrdered h step hs⟩
  have hsublist := evaluate_sublist h hr hf he
  exact ⟨(Site.inOrder_all h).sublist hsublist, hsublist⟩

def movedSetting : Setting := { source := .of movedOut }

/-- The element before the one that stayed is the one that was moved. -/
theorem nodes_in_document_order_movedOut :
    movedSetting.source.document.Reachable ∧
    evaluate movedSetting { site := .node 1 } (.relative [.mk .preceding .any []]) =
      .ok (.nodes [.node 2]) ∧
    movedSetting.source.InOrder [.node 2] ∧
    [Site.node 2].Sublist (Site.all movedSetting.source.document) := by
  have hd : movedSetting.source.document.Reachable := reachable_movedOut
  have hr : movedSetting.root = .document := rfl
  have hsite : Site.node 1 ∈ Site.all movedSetting.source.document := by decide +kernel
  have hstep : takeSteps movedSetting [.mk .preceding .any []] [.node 1] = .ok [.node 2] := by
    decide +kernel
  have hfound : evaluate movedSetting { site := .node 1 } (.relative [.mk .preceding .any []]) =
      .ok (.nodes [.node 2]) := by
    rw [evaluate, hstep]
    rfl
  exact ⟨hd, hfound, (nodes_in_document_order hd hr hsite).1 _ _ hfound⟩

end MarkupQuery.Query
