import MarkupQuery.Proofs.Query.BareDocuments
import MarkupQuery.Proofs.Query.Correspondence.Evaluation

namespace MarkupQuery.Query

open MarkupQuery.Tree

def NodeTest.renamed (r : String → String) : NodeTest → NodeTest
  | name qualifier localName => name (qualifier.map r) localName
  | anyIn qualifier => anyIn (r qualifier)
  | any => any
  | type wanted => type wanted

mutual

def Expr.renamed (r : String → String) : Expr → Expr
  | .literal value => .literal value
  | .number value => .number value
  | .relative steps => .relative (stepsRenamed r steps)
  | .absolute steps => .absolute (stepsRenamed r steps)
  | .continued start steps => .continued (start.renamed r) (stepsRenamed r steps)
  | .call name arguments => .call name (listRenamed r arguments)
  | .binary op left right => .binary op (left.renamed r) (right.renamed r)
  | .negate operand => .negate (operand.renamed r)
  | .filter operand predicates => .filter (operand.renamed r) (listRenamed r predicates)

def Step.renamed (r : String → String) : Step → Step
  | .mk axis test predicates => .mk axis (test.renamed r) (listRenamed r predicates)

def stepsRenamed (r : String → String) : List Step → List Step
  | [] => []
  | step :: steps => step.renamed r :: stepsRenamed r steps

def listRenamed (r : String → String) : List Expr → List Expr
  | [] => []
  | e :: es => e.renamed r :: listRenamed r es

end

def Bindings.renamed (r : String → String) (bindings : Bindings) : Bindings :=
  bindings.map fun (qualifier, uri) => (r qualifier, uri)

def Error.renamed (r : String → String) : Error → Error
  | unboundQualifier qualifier => unboundQualifier (r qualifier)
  | other => other

mutual

def Expr.functions : Expr → List String
  | .literal _ | .number _ => []
  | .relative steps | .absolute steps => stepsFunctions steps
  | .continued start steps => start.functions ++ stepsFunctions steps
  | .call name arguments => name :: listFunctions arguments
  | .binary _ left right => left.functions ++ right.functions
  | .negate operand => operand.functions
  | .filter operand predicates => operand.functions ++ listFunctions predicates

def Step.functions : Step → List String
  | .mk _ _ predicates => listFunctions predicates

def stepsFunctions : List Step → List String
  | [] => []
  | step :: steps => step.functions ++ stepsFunctions steps

def listFunctions : List Expr → List String
  | [] => []
  | e :: es => e.functions ++ listFunctions es

end

section Bare

theorem callFunction_bare (source : Ranked) (root : Site) (focus : Focus) {name : String}
    (h : name ≠ "name") (arguments : List Value) :
    callFunction source.bare root focus name arguments =
      callFunction source root focus name arguments := by
  unfold callFunction
  split
  · rename_i function found arity hfind
    refine CoreFunction.apply_bare source root focus ?_ name arity arguments
    -- the function that shows names as they are written has one name only
    rintro rfl
    have htable : ∀ entry ∈ CoreFunction.table, entry.1 = .name → entry.2.1 = "name" := by decide
    have hname : found = name := by simpa using List.find?_some hfind
    exact h (hname ▸ htable _ (List.mem_of_find?_eq_some hfind) rfl)
  · rfl

def Setting.bare (s : Setting) : Setting := { s with source := s.source.bare }

variable {s : Setting}

mutual

theorem evaluate_bare : ∀ (e : Expr) (focus : Focus), "name" ∉ e.functions →
    evaluate s.bare focus e = evaluate s focus e
  | .literal _, _, _ | .number _, _, _ => by simp only [evaluate]
  | .relative steps, focus, h => by
    simp only [evaluate, takeSteps_bare steps h]
  | .absolute steps, focus, h => by
    simp only [evaluate, takeSteps_bare steps h]
    rfl
  | .continued start steps, focus, h => by
    simp only [Expr.functions, List.mem_append, not_or] at h
    simp only [evaluate, evaluate_bare start focus h.1, takeSteps_bare steps h.2]
  | .call name arguments, focus, h => by
    simp only [Expr.functions, List.mem_cons, not_or] at h
    simp only [evaluate, evaluateAll_bare arguments focus h.2]
    simp only [Setting.bare, callFunction_bare _ _ _ (Ne.symm h.1)]
  | .binary op left right, focus, h => by
    simp only [Expr.functions, List.mem_append, not_or] at h
    simp only [evaluate, evaluate_bare left focus h.1, evaluate_bare right focus h.2]
    simp only [Setting.bare, BinaryOp.apply_bare]
  | .negate operand, focus, h => by
    simp only [evaluate, evaluate_bare operand focus h]
    simp only [Setting.bare, Ranked.document_bare, Value.toNumber_bare]
  | .filter operand predicates, focus, h => by
    simp only [Expr.functions, List.mem_append, not_or] at h
    simp only [evaluate, evaluate_bare operand focus h.1, keepAll_bare predicates h.2]
    simp only [Setting.bare, Ranked.ordered_bare]

theorem evaluateAll_bare : ∀ (es : List Expr) (focus : Focus), "name" ∉ listFunctions es →
    evaluateAll s.bare focus es = evaluateAll s focus es
  | [], _, _ => by simp only [evaluateAll]
  | e :: es, focus, h => by
    simp only [listFunctions, List.mem_append, not_or] at h
    simp only [evaluateAll, evaluate_bare e focus h.1, evaluateAll_bare es focus h.2]

theorem keepAll_bare : ∀ (predicates : List Expr), "name" ∉ listFunctions predicates →
    keepAll s.bare predicates = keepAll s predicates
  | [], _ => by
    funext sites
    simp only [keepAll]
  | predicate :: rest, h => by
    simp only [listFunctions, List.mem_append, not_or] at h
    funext sites
    simp only [keepAll, evaluate_bare predicate _ h.1, keepAll_bare rest h.2]

theorem takeStep_bare : ∀ (step : Step), "name" ∉ step.functions →
    takeStep s.bare step = takeStep s step
  | .mk axis test predicates, h => by
    funext sites
    simp only [takeStep, keepAll_bare predicates h]
    simp only [Setting.bare, Ranked.document_bare, Axis.sites_bare, ResolvedTest.admits_bare,
      mergeFound, Ranked.ordered_bare]

theorem takeSteps_bare : ∀ (steps : List Step), "name" ∉ stepsFunctions steps →
    takeSteps s.bare steps = takeSteps s steps
  | [], _ => by
    funext sites
    simp only [takeSteps]
  | step :: rest, h => by
    simp only [stepsFunctions, List.mem_append, not_or] at h
    funext sites
    simp only [takeSteps, takeStep_bare step h.1, takeSteps_bare rest h.2]

end

end Bare

section Failures

variable {α β ε : Type} {f : ε → ε}

theorem mapError_map (x : Except ε α) (g : α → β) :
    (x.map g).mapError f = (x.mapError f).map g := by cases x <;> rfl

/-- Two computations fail alike if they start alike and go on alike. -/
theorem bind_mapError_congr {x x' : Except ε α} (hx : x' = x.mapError f)
    {next next' : α → Except ε β} (h : ∀ a, next' a = (next a).mapError f) :
    (x' >>= next') = (x >>= next).mapError f := by
  subst hx
  cases x with
  | error e => rfl
  | ok a => exact h a

theorem mapM_mapError {g g' : α → Except ε β} (h : ∀ a, g' a = (g a).mapError f) (as : List α) :
    as.mapM g' = (as.mapM g).mapError f := by
  induction as with
  | nil => rfl
  | cons a as ih =>
    rw [List.mapM_cons, List.mapM_cons]
    exact bind_mapError_congr (h a) fun first => bind_mapError_congr ih fun rest => rfl

end Failures

section Renamed

variable {r : String → String}

theorem keepWhere_renamed {test test' : Focus → Except Error Value}
    (h : ∀ focus, test' focus = (test focus).mapError (Error.renamed r)) (size position : Nat)
    (sites : List Site) : keepWhere test' size position sites =
      (keepWhere test size position sites).mapError (Error.renamed r) := by
  induction sites generalizing position with
  | nil => rfl
  | cons site rest ih =>
    rw [keepWhere, keepWhere]
    exact bind_mapError_congr (h _) fun value => bind_mapError_congr (ih _) fun more => rfl

section Lookup

variable (hr : Function.Injective r)

include hr

theorem lookup_renamed (bindings : Bindings) (q : String) :
    (bindings.renamed r).lookup (r q) = bindings.lookup q := by
  induction bindings with
  | nil => rfl
  | cons binding rest ih =>
    have hq : (r q == r binding.1) = (q == binding.1) := by
      rw [Bool.eq_iff_iff, beq_iff_eq, beq_iff_eq, hr.eq_iff]
    rw [Bindings.renamed] at ih ⊢
    rw [List.map_cons, List.lookup_cons, List.lookup_cons, hq, ih]

variable (hxml : r "xml" = "xml")

include hxml

/-- A renamed prefix stands for what it stood for; that of XML itself is bound without a binding. -/
theorem resolveQualifier_renamed (bindings : Bindings) (q : String) :
    resolveQualifier (bindings.renamed r) (r q) =
      (resolveQualifier bindings q).mapError (Error.renamed r) := by
  have hq : (r q == "xml") = (q == "xml") := by
    rw [Bool.eq_iff_iff, beq_iff_eq, beq_iff_eq]
    exact ⟨fun h => hr (h.trans hxml.symm), fun h => h ▸ hxml⟩
  unfold resolveQualifier
  rw [lookup_renamed hr, hq]
  cases bindings.lookup q with
  | some uri => rfl
  | none => cases q == "xml" <;> rfl

theorem NodeTest.resolve_renamed (bindings : Bindings) (test : NodeTest) :
    (test.renamed r).resolve (bindings.renamed r) =
      (test.resolve bindings).mapError (Error.renamed r) := by
  cases test with
  | name qualifier localName =>
    cases qualifier with
    | none => rfl
    | some q =>
      simp only [renamed, resolve, Option.map_some, resolveQualifier_renamed hr hxml, mapError_map]
  | anyIn q => simp only [renamed, resolve, resolveQualifier_renamed hr hxml, mapError_map]
  | any => rfl
  | type wanted => rfl

end Lookup

/-! Functions and operators never fail for a prefix. -/

theorem requireNodes_mapError (function : String) (value : Value) :
    (requireNodes function value).mapError (Error.renamed r) = requireNodes function value := by
  cases value <;> rfl

theorem callFunction_mapError (source : Ranked) (root : Site) (focus : Focus) (name : String)
    (arguments : List Value) :
    (callFunction source root focus name arguments).mapError (Error.renamed r) =
      callFunction source root focus name arguments := by
  have hnode : ∀ function, (nodeArgument source focus function arguments).mapError
      (Error.renamed r) = nodeArgument source focus function arguments := by
    intro function
    cases arguments with
    | nil => rfl
    | cons value rest => rw [nodeArgument, mapError_map, requireNodes_mapError]
  unfold callFunction
  split
  · unfold CoreFunction.apply
    dsimp only
    split <;> first | rfl | rw [mapError_map, requireNodes_mapError] | rw [mapError_map, hnode]
  · rfl

theorem BinaryOp.apply_mapError (source : Ranked) (op : BinaryOp) (left right : Value) :
    (op.apply source left right).mapError (Error.renamed r) = op.apply source left right := by
  cases op with
  | union => cases left <;> cases right <;> rfl
  | _ => rfl

def Setting.renamed (r : String → String) (s : Setting) : Setting :=
  { s with bindings := s.bindings.renamed r }

variable {s : Setting}

mutual

/-- A renamed expression has the same value under renamed bindings, or fails with the renamed
error. -/
theorem evaluate_renamed (hr : Function.Injective r) (hxml : r "xml" = "xml") :
    ∀ (e : Expr) (focus : Focus),
      evaluate (s.renamed r) focus (e.renamed r) =
        (evaluate s focus e).mapError (Error.renamed r)
  | .literal _, _ => by simp only [Expr.renamed, evaluate]; rfl
  | .number _, _ => by simp only [Expr.renamed, evaluate]; rfl
  | .relative steps, focus => by
    simp only [Expr.renamed, evaluate, takeSteps_renamed hr hxml steps, mapError_map]
  | .absolute steps, focus => by
    simp only [Expr.renamed, evaluate, takeSteps_renamed hr hxml steps, mapError_map]
    rfl
  | .continued start steps, focus => by
    simp only [Expr.renamed, evaluate]
    refine bind_mapError_congr (evaluate_renamed hr hxml start focus) fun value => ?_
    cases value with
    | nodes sites => simp only [takeSteps_renamed hr hxml steps, mapError_map]
    | scalar value => rfl
  | .call name arguments, focus => by
    simp only [Expr.renamed, evaluate]
    refine bind_mapError_congr (evaluateAll_renamed hr hxml arguments focus) fun values => ?_
    exact (callFunction_mapError ..).symm
  | .binary op left right, focus => by
    simp only [Expr.renamed, evaluate]
    refine bind_mapError_congr (evaluate_renamed hr hxml left focus) fun value => ?_
    refine bind_mapError_congr (evaluate_renamed hr hxml right focus) fun other => ?_
    exact (BinaryOp.apply_mapError ..).symm
  | .negate operand, focus => by
    simp only [Expr.renamed, evaluate]
    exact bind_mapError_congr (evaluate_renamed hr hxml operand focus) fun value => rfl
  | .filter operand predicates, focus => by
    simp only [Expr.renamed, evaluate]
    refine bind_mapError_congr (evaluate_renamed hr hxml operand focus) fun value => ?_
    cases value with
    | nodes sites =>
      simp only [keepAll_renamed hr hxml predicates, mapError_map]
      rfl
    | scalar value => rfl

theorem evaluateAll_renamed (hr : Function.Injective r) (hxml : r "xml" = "xml") :
    ∀ (es : List Expr) (focus : Focus),
      evaluateAll (s.renamed r) focus (listRenamed r es) =
        (evaluateAll s focus es).mapError (Error.renamed r)
  | [], _ => by simp only [listRenamed, evaluateAll]; rfl
  | e :: es, focus => by
    simp only [listRenamed, evaluateAll]
    refine bind_mapError_congr (evaluate_renamed hr hxml e focus) fun value => ?_
    exact bind_mapError_congr (evaluateAll_renamed hr hxml es focus) fun more => rfl

theorem keepAll_renamed (hr : Function.Injective r) (hxml : r "xml" = "xml") :
    ∀ (predicates : List Expr) (sites : List Site),
      keepAll (s.renamed r) (listRenamed r predicates) sites =
        (keepAll s predicates sites).mapError (Error.renamed r)
  | [], _ => by simp only [listRenamed, keepAll]; rfl
  | predicate :: rest, sites => by
    simp only [listRenamed, keepAll]
    refine bind_mapError_congr (keepWhere_renamed (fun focus => ?_) _ _ _) fun kept => ?_
    · exact evaluate_renamed hr hxml predicate focus
    · exact keepAll_renamed hr hxml rest kept

theorem takeStep_renamed (hr : Function.Injective r) (hxml : r "xml" = "xml") :
    ∀ (step : Step) (sites : List Site),
      takeStep (s.renamed r) (step.renamed r) sites =
        (takeStep s step sites).mapError (Error.renamed r)
  | .mk axis test predicates, sites => by
    rw [Step.renamed, takeStep_eq, takeStep_eq]
    refine bind_mapError_congr (test.resolve_renamed hr hxml s.bindings) fun resolved => ?_
    refine bind_mapError_congr (mapM_mapError (fun site => ?_) sites) fun found => rfl
    exact keepAll_renamed hr hxml predicates _

theorem takeSteps_renamed (hr : Function.Injective r) (hxml : r "xml" = "xml") :
    ∀ (steps : List Step) (sites : List Site),
      takeSteps (s.renamed r) (stepsRenamed r steps) sites =
        (takeSteps s steps sites).mapError (Error.renamed r)
  | [], _ => by simp only [stepsRenamed, takeSteps]; rfl
  | step :: rest, sites => by
    simp only [stepsRenamed, takeSteps]
    exact bind_mapError_congr (takeStep_renamed hr hxml step sites) (takeSteps_renamed hr hxml rest)

end

end Renamed

/-- Prefixes are only names for namespaces. Whatever an expression, its bindings and the place where
it is evaluated are: with its prefixes and those of the bindings renamed alike, it has the same value
or fails with the renamed error; and it has the same value or error in a document whose names are
written with other prefixes. Only an expression that asks for names as they are written can tell. -/
theorem evaluate_respelled {doc other : Document} (hother : other.bare = doc.bare)
    {r : String → String} (hr : Function.Injective r) (hxml : r "xml" = "xml") {e : Expr}
    (he : "name" ∉ e.functions) (root : Site) (bindings : Bindings) (focus : Focus) :
    evaluate { source := .of doc, root, bindings := bindings.renamed r } focus (e.renamed r) =
        (evaluate { source := .of doc, root, bindings } focus e).mapError (Error.renamed r) ∧
      evaluate { source := .of other, root, bindings } focus e =
        evaluate { source := .of doc, root, bindings } focus e := by
  refine ⟨evaluate_renamed (s := { source := .of doc, root, bindings }) hr hxml e focus, ?_⟩
  rw [← evaluate_bare (s := { source := .of other, root, bindings }) e focus he,
    ← evaluate_bare (s := { source := .of doc, root, bindings }) e focus he]
  simp only [Setting.bare, Ranked.bare, Ranked.of, hother]

def spelled (qualifier : String) : Document :=
  let element : Element :=
    { name := "r", qualifier := some qualifier, namespaceUri := some "urn:u" }
  (Document.empty.create (.element element)).1.linkLast Document.root 1

/-- The element is found by any prefix bound to its namespace, whatever prefix it is written with. -/
theorem evaluate_respelled_spelled :
    (spelled "q").bare = (spelled "p").bare ∧
    evaluate { source := .of (spelled "p"), bindings := [("b", "urn:u")] } { site := .document }
      (.relative [.mk .child (.name (some "b") "r") []]) = .ok (.nodes [.node 1]) ∧
    evaluate { source := .of (spelled "q"), bindings := [("a", "urn:u")] } { site := .document }
      (.relative [.mk .child (.name (some "a") "r") []]) = .ok (.nodes [.node 1]) := by
  have hbare : (spelled "q").bare = (spelled "p").bare :=
    congrArg Document.mk (by decide +kernel)
  have hswap : Equiv.swap "a" "b" "xml" = "xml" := by decide
  have hstep : takeSteps { source := .of (spelled "p"), bindings := [("a", "urn:u")] }
      [.mk .child (.name (some "a") "r") []] [.document] = .ok [.node 1] := by
    decide +kernel
  have hfound : evaluate { source := .of (spelled "p"), bindings := [("a", "urn:u")] }
      { site := .document } (.relative [.mk .child (.name (some "a") "r") []]) =
        .ok (.nodes [.node 1]) := by
    rw [evaluate, hstep]
    rfl
  obtain ⟨hrenamed, hother⟩ := evaluate_respelled hbare (Equiv.swap "a" "b").injective hswap
    (e := .relative [.mk .child (.name (some "a") "r") []]) (by decide) .document
    [("a", "urn:u")] { site := .document }
  rw [hfound] at hrenamed hother
  exact ⟨hbare, hrenamed, hother⟩

end MarkupQuery.Query
