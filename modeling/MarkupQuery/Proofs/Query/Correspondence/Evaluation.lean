import MarkupQuery.Proofs.Query.Correspondence.Values
import MarkupQuery.Proofs.Query.NodeSets

namespace MarkupQuery.Query

open MarkupQuery.Tree MarkupQuery.Text

section Results

variable {α β γ δ ε : Type}

/-- Two computations correspond if they start with corresponding results and go on alike from
those. -/
theorem bind_map_congr {x : Except ε α} {x' : Except ε β} {f : α → β} (hx : x' = x.map f)
    {next : α → Except ε γ} {next' : β → Except ε δ} {g : γ → δ}
    (h : ∀ a, x = .ok a → next' (f a) = (next a).map g) :
    (x' >>= next') = (x >>= next).map g := by
  subst hx
  cases x with
  | error e => rfl
  | ok a => exact h a rfl

theorem mapM_map_congr {as : List α} {m : α → β} {f : α → Except ε γ} {f' : β → Except ε δ}
    {g : γ → δ} (h : ∀ a ∈ as, f' (m a) = (f a).map g) :
    (as.map m).mapM f' = (as.mapM f).map (List.map g) := by
  induction as with
  | nil => rfl
  | cons a as ih =>
    obtain ⟨ha, has⟩ := List.forall_mem_cons.mp h
    rw [List.map_cons, List.mapM_cons, List.mapM_cons]
    exact bind_map_congr ha fun first _ => bind_map_congr (ih has) fun rest _ => rfl

theorem nodes_map_congr {φ : NodeId → NodeId} {found found' : Except ε (List Site)}
    (h : found' = found.map (List.map (Site.map φ))) :
    found'.map Value.nodes = (found.map Value.nodes).map (Value.map φ) := by
  subst h
  cases found <;> rfl

end Results

/-- Two settings over corresponding documents, with the document nodes as roots and the same
bindings. -/
structure Setting.Corresponds (s t : Setting) (φ : NodeId → NodeId) : Prop where
  document : s.source.document.Corresponds t.source.document φ
  forest : Forest s.source.document s.source.document.children
  forest' : Forest t.source.document t.source.document.children
  root : s.root = .document
  root' : t.root = .document
  bindings : t.bindings = s.bindings

section Evaluation

variable {s t : Setting} {φ : NodeId → NodeId} {focus : Focus} {sites : List Site}
  (h : s.Corresponds t φ)

theorem Value.holdsAt_map (φ : NodeId → NodeId) (position : Nat) (value : Value) :
    (value.map φ).holdsAt position = value.holdsAt position := by
  cases value with
  | nodes sites => exact Value.toBool_map φ (.nodes sites)
  | scalar value => rfl

section

include h

theorem within_of_subset (hsites : sites ⊆ Site.all s.source.document) :
    ∀ site ∈ sites, s.source.document.Within site.id Document.root :=
  fun _ hsite => ((Site.mem_all h.forest).mp (hsites hsite)).1

/-- The values of expressions at attached sites hold attached sites. -/
theorem attached_of_evaluate (hfocus : focus.site ∈ Site.all s.source.document) {e : Expr}
    {value : Value} (he : evaluate s focus e = .ok value) : value.Attached s.source.document := by
  cases value with
  | scalar value => trivial
  | nodes sites =>
    exact within_of_subset h (evaluate_sublist h.forest h.root hfocus he).subset

theorem attached_of_evaluateAll (hfocus : focus.site ∈ Site.all s.source.document)
    {es : List Expr} {values : List Value} (he : evaluateAll s focus es = .ok values) :
    ∀ value ∈ values, value.Attached s.source.document := by
  induction es generalizing values with
  | nil =>
    simp only [evaluateAll, Except.ok.injEq] at he
    simp [← he]
  | cons e es ih =>
    simp only [evaluateAll, bind_eq_ok, pure, Except.pure, Except.ok.injEq] at he
    obtain ⟨value, hvalue, more, hmore, rfl⟩ := he
    exact List.forall_mem_cons.mpr ⟨attached_of_evaluate h hfocus hvalue, ih hmore⟩

theorem callFunction_map (hfocus : focus.site ∈ Site.all s.source.document) (name : String)
    {arguments : List Value} (ha : ∀ value ∈ arguments, value.Attached s.source.document) :
    callFunction t.source t.root (focus.map φ) name (arguments.map (Value.map φ)) =
      (callFunction s.source s.root focus name arguments).map (Value.map φ) := by
  unfold callFunction
  rw [h.root, h.root']
  split
  · exact CoreFunction.apply_map h.document h.forest h.forest'
      ((Site.mem_all h.forest).mp hfocus).1 name _ _ ha
  · rfl

omit h in
/-- A predicate whose values correspond keeps corresponding sites. -/
theorem keepWhere_map {predicate : Expr} (size position : Nat)
    (hpredicate : ∀ focus : Focus, focus.site ∈ sites →
      evaluate t (focus.map φ) predicate = (evaluate s focus predicate).map (Value.map φ)) :
    keepWhere (fun focus => evaluate t focus predicate) size position (sites.map (Site.map φ)) =
      (keepWhere (fun focus => evaluate s focus predicate) size position sites).map
        (List.map (Site.map φ)) := by
  induction sites generalizing position with
  | nil => rfl
  | cons site sites ih =>
    have hsite := hpredicate ⟨site, position, size⟩ (List.mem_cons_self ..)
    have hrest := ih (position + 1) fun focus hf => hpredicate focus (List.mem_cons_of_mem _ hf)
    rw [List.map_cons, keepWhere, keepWhere]
    refine bind_map_congr hsite fun value _ => bind_map_congr hrest fun more _ => ?_
    rw [Value.holdsAt_map]
    cases value.holdsAt position <;> rfl

theorem mergeFound_map (axis : Axis) {found : List (List Site)}
    (hfound : found.flatten ⊆ Site.all s.source.document) :
    mergeFound t.source axis (found.map (List.map (Site.map φ))) =
      (mergeFound s.source axis found).map (Site.map φ) := by
  unfold mergeFound
  rw [List.length_map, ← List.map_flatten]
  split
  · exact Ranked.ordered_map h.document h.forest h.forest' (within_of_subset h hfound)
  · rfl

/-- The sites on an axis that pass a test correspond. -/
theorem admitted_map (axis : Axis) (test : ResolvedTest) {site : Site}
    (hsite : site ∈ Site.all s.source.document) :
    (axis.sites t.source.document (site.map φ)).filter (test.admits t.source.document axis) =
      ((axis.sites s.source.document site).filter
        (test.admits s.source.document axis)).map (Site.map φ) := by
  have hwithin := within_of_subset h ((closed_all h.forest).subset axis _ hsite)
  have hsite := ((Site.mem_all h.forest).mp hsite).1
  rw [Axis.sites_map axis hsite h.document h.forest h.forest', List.filter_map]
  refine congrArg (List.map (Site.map φ)) (List.filter_congr fun other hother => ?_)
  exact test.admits_map h.document h.forest (hwithin other hother) axis

omit h

end

mutual

/-- An expression has corresponding values at corresponding sites, or fails with the same error. -/
theorem evaluate_map (h : s.Corresponds t φ) :
    ∀ (e : Expr) {focus : Focus}, focus.site ∈ Site.all s.source.document →
      evaluate t (focus.map φ) e = (evaluate s focus e).map (Value.map φ)
  | .literal _, _, _ => rfl
  | .number _, _, _ => rfl
  | .relative steps, focus, hfocus => by
    simp only [evaluate]
    exact nodes_map_congr (takeSteps_map h steps (List.singleton_sublist.mpr hfocus).subset)
  | .absolute steps, focus, hfocus => by
    have hroot : Site.document ∈ Site.all s.source.document := Site.node_mem_all h.forest .refl
    have hsteps := takeSteps_map h steps (List.singleton_sublist.mpr hroot).subset
    rw [List.map_singleton, Site.map_document h.document] at hsteps
    simp only [evaluate]
    rw [h.root, h.root']
    exact nodes_map_congr hsteps
  | .continued start steps, focus, hfocus => by
    simp only [evaluate]
    refine bind_map_congr (evaluate_map h start hfocus) fun value hvalue => ?_
    cases value with
    | scalar value => rfl
    | nodes sites =>
      have hsites := evaluate_sublist h.forest h.root hfocus hvalue
      exact nodes_map_congr (takeSteps_map h steps hsites.subset)
  | .call name arguments, focus, hfocus => by
    simp only [evaluate]
    refine bind_map_congr (evaluateAll_map h arguments hfocus) fun values hvalues => ?_
    exact callFunction_map h hfocus name (attached_of_evaluateAll h hfocus hvalues)
  | .binary op left right, focus, hfocus => by
    simp only [evaluate]
    refine bind_map_congr (evaluate_map h left hfocus) fun value hvalue => ?_
    refine bind_map_congr (evaluate_map h right hfocus) fun other hother => ?_
    exact BinaryOp.apply_map h.document h.forest h.forest' op
      (attached_of_evaluate h hfocus hvalue) (attached_of_evaluate h hfocus hother)
  | .negate operand, focus, hfocus => by
    simp only [evaluate]
    refine bind_map_congr (evaluate_map h operand hfocus) fun value hvalue => ?_
    rw [Value.toNumber_map h.document h.forest h.forest' (attached_of_evaluate h hfocus hvalue)]
    rfl
  | .filter operand predicates, focus, hfocus => by
    simp only [evaluate]
    refine bind_map_congr (evaluate_map h operand hfocus) fun value hvalue => ?_
    cases value with
    | scalar value => rfl
    | nodes sites =>
      -- the sites of the operand are attached, so each of them corresponds to one
      have hsites := (evaluate_sublist h.forest h.root hfocus hvalue).subset
      have hkept := keepAll_map h predicates ((closed_all h.forest).ordered_sublist hsites).subset
      rw [← Ranked.ordered_map h.document h.forest h.forest' (within_of_subset h hsites)] at hkept
      exact nodes_map_congr hkept

theorem evaluateAll_map (h : s.Corresponds t φ) :
    ∀ (es : List Expr) {focus : Focus}, focus.site ∈ Site.all s.source.document →
      evaluateAll t (focus.map φ) es = (evaluateAll s focus es).map (List.map (Value.map φ))
  | [], _, _ => by simp [evaluateAll, Except.map]
  | e :: es, focus, hfocus => by
    simp only [evaluateAll]
    refine bind_map_congr (evaluate_map h e hfocus) fun value _ => ?_
    exact bind_map_congr (evaluateAll_map h es hfocus) fun more _ => rfl

theorem keepAll_map (h : s.Corresponds t φ) :
    ∀ (predicates : List Expr) {sites : List Site}, sites ⊆ Site.all s.source.document →
      keepAll t predicates (sites.map (Site.map φ)) =
        (keepAll s predicates sites).map (List.map (Site.map φ))
  | [], sites, _ => by simp [keepAll, Except.map]
  | predicate :: rest, sites, hsites => by
    have hkept := keepWhere_map sites.length 1 fun focus hf => evaluate_map h predicate (hsites hf)
    simp only [keepAll]
    rw [List.length_map]
    refine bind_map_congr hkept fun kept hk => ?_
    exact keepAll_map h rest (List.Subset.trans (keepWhere_sublist hk).subset hsites)

theorem takeStep_map (h : s.Corresponds t φ) :
    ∀ (step : Step) {sites : List Site}, sites ⊆ Site.all s.source.document →
      takeStep t step (sites.map (Site.map φ)) =
        (takeStep s step sites).map (List.map (Site.map φ))
  | .mk axis test predicates, sites, hsites => by
    have hresolved : test.resolve t.bindings = (test.resolve s.bindings).map id := by
      rw [h.bindings]
      cases test.resolve s.bindings <;> rfl
    rw [takeStep_eq, takeStep_eq]
    refine bind_map_congr hresolved fun resolved _ => ?_
    have hfrom : ∀ site ∈ sites, foundFrom t axis resolved predicates (site.map φ) =
        (foundFrom s axis resolved predicates site).map (List.map (Site.map φ)) := by
      intro site hsite
      have haxis := (closed_all h.forest).subset axis _ (hsites hsite)
      unfold foundFrom
      rw [admitted_map h axis resolved (hsites hsite)]
      exact keepAll_map h predicates (List.Subset.trans List.filter_sublist.subset haxis)
    refine bind_map_congr (mapM_map_congr hfrom) fun found hf => ?_
    have hfound := (closed_all h.forest).flatten_subset hsites (mapM_eq_ok.mp hf)
    exact congrArg Except.ok (mergeFound_map h axis hfound)

theorem takeSteps_map (h : s.Corresponds t φ) :
    ∀ (steps : List Step) {sites : List Site}, sites ⊆ Site.all s.source.document →
      takeSteps t steps (sites.map (Site.map φ)) =
        (takeSteps s steps sites).map (List.map (Site.map φ))
  | [], sites, _ => by simp [takeSteps, Except.map]
  | step :: rest, sites, hsites => by
    simp only [takeSteps]
    refine bind_map_congr (takeStep_map h step hsites) fun found hf => ?_
    exact takeSteps_map h rest ((closed_all h.forest).takeStep_sublist hsites hf).subset

end

end Evaluation

/-- Whatever an expression, its bindings, position and size are: at an attached site of one document
and at the corresponding site of another it has the same scalar value, fails with the same error, or
selects corresponding sites in the same order. Ids, detached nodes and the history of a document
never decide what a query gives. -/
theorem evaluate_corresponding {first second : Document} {φ : NodeId → NodeId}
    (hf : first.Reachable) (hs : second.Reachable) (h : first.Corresponds second φ)
    {site : Site} (hsite : site ∈ Site.all first) (bindings : Bindings) (position size : Nat)
    (e : Expr) :
    evaluate { source := .of second, bindings } ⟨site.map φ, position, size⟩ e =
      (evaluate { source := .of first, bindings } ⟨site, position, size⟩ e).map (Value.map φ) := by
  have hsettings : Setting.Corresponds { source := .of first, bindings }
      { source := .of second, bindings } φ := ⟨h, hf.forest, hs.forest, rfl, rfl, rfl⟩
  exact evaluate_map hsettings e (show (Focus.mk site position size).site ∈ _ from hsite)

def builtInPlace : Document :=
  (Change.append 0 3).apply ((Change.append 0 2).apply
    ((Change.create (.element { name := "a" })).apply
      ((Change.create (.element { name := "b" })).apply
        ((Change.create (.element { name := "c" })).apply .empty))))

theorem reachable_builtInPlace : builtInPlace.Reachable := by
  refine .change_alone _ ?_ (by simp)
  refine .change_alone _ ?_ (by simp)
  refine .change_alone _ ?_ (by simp)
  refine .change_alone _ ?_ (by simp)
  exact .change_alone _ .empty (by simp)

theorem corresponds_builtInPlace :
    movedOut.Corresponds builtInPlace (fun id => if id = 1 then 3 else id) := by
  refine .of_subtree reachable_movedOut.forest reachable_builtInPlace.forest (by decide +kernel) ?_
  have hwalk : movedOut.subtree Document.root = [0, 2, 1] := by decide +kernel
  rw [hwalk]
  decide +kernel

/-- The element before the last one, which has another id here, is found in both documents. -/
theorem evaluate_corresponding_builtInPlace :
    movedOut.Reachable ∧ builtInPlace.Reachable ∧
    evaluate { source := .of movedOut } { site := .node 1 } (.relative [.mk .preceding .any []]) =
      .ok (.nodes [.node 2]) ∧
    evaluate { source := .of builtInPlace } { site := .node 3 }
      (.relative [.mk .preceding .any []]) = .ok (.nodes [.node 2]) := by
  have hsite : Site.node 1 ∈ Site.all movedOut := by decide +kernel
  have hstep : takeSteps { source := .of movedOut } [.mk .preceding .any []] [.node 1] =
      .ok [.node 2] := by
    decide +kernel
  have hfound : evaluate { source := .of movedOut } { site := .node 1 }
      (.relative [.mk .preceding .any []]) = .ok (.nodes [.node 2]) := by
    rw [evaluate, hstep]
    rfl
  refine ⟨reachable_movedOut, reachable_builtInPlace, hfound, ?_⟩
  have hsame := evaluate_corresponding reachable_movedOut reachable_builtInPlace
    corresponds_builtInPlace hsite [] 1 1 (.relative [.mk .preceding .any []])
  rw [hfound] at hsame
  exact hsame

end MarkupQuery.Query
