import MarkupQuery.Proofs.Query.Steps

namespace MarkupQuery.Query

variable {α β : Type} {x : Except Error α} {f : α → Except Error β} {s : Setting}
  {P : Error → Prop}

def FailsOnlyWith (P : Error → Prop) (x : Except Error α) : Prop := ∀ e, x = .error e → P e

namespace FailsOnlyWith

theorem ok (a : α) : FailsOnlyWith P (.ok a) := fun _ h => by cases h

theorem error {e : Error} (h : P e) : FailsOnlyWith P (.error e : Except Error α) :=
  fun _ he => Except.error.inj he ▸ h

theorem bind (h : FailsOnlyWith P x) (hf : ∀ a, FailsOnlyWith P (f a)) :
    FailsOnlyWith P (x >>= f) := by
  cases x with
  | ok a => exact hf a
  | error e => exact error (h e rfl)

theorem map (h : FailsOnlyWith P x) (g : α → β) : FailsOnlyWith P (x.map g) := by
  cases x with
  | ok a => exact ok (g a)
  | error e => exact error (h e rfl)

theorem mapM (hf : ∀ a, FailsOnlyWith P (f a)) (as : List α) : FailsOnlyWith P (as.mapM f) := by
  induction as with
  | nil => exact ok []
  | cons a as ih =>
    rw [List.mapM_cons]
    exact (hf a).bind fun b => ih.bind fun bs => ok (b :: bs)

end FailsOnlyWith

/-- The errors that evaluating an expression with the given prefixes may end in: not that it cannot be
read, and none for a prefix but for one of those that nothing binds. -/
def Error.Arises (bindings : Bindings) (qualifiers : List String) : Error → Prop
  | .unparsed _ _ => False
  | .unboundQualifier q => q ∈ qualifiers ∧ q ≠ "xml" ∧ bindings.lookup q = none
  | _ => True

/-- Evaluation with the given bindings that uses no other prefixes than the given ones. -/
abbrev Evaluates (bindings : Bindings) (qualifiers : List String) (x : Except Error α) : Prop :=
  FailsOnlyWith (Error.Arises bindings qualifiers) x

variable {bindings : Bindings} {qualifiers : List String}

theorem evaluates_resolve {test : NodeTest} (h : test.qualifiers ⊆ qualifiers) :
    Evaluates bindings qualifiers (test.resolve bindings) := by
  have hqualifier : ∀ q ∈ qualifiers, Evaluates bindings qualifiers (resolveQualifier bindings q) := by
    intro q hq
    unfold resolveQualifier
    split
    · exact .ok _
    · rename_i hnone
      split
      · exact .ok _
      · rename_i hxml
        exact .error ⟨hq, by simpa using hxml, hnone⟩
  cases test with
  | name qualifier localName =>
    cases qualifier with
    | none => exact .ok _
    | some q => exact (hqualifier q (h List.mem_cons_self)).map _
  | anyIn q => exact (hqualifier q (h List.mem_cons_self)).map _
  | any => exact .ok _
  | type wanted => exact .ok _

theorem evaluates_operator (source : Ranked) (op : BinaryOp) (left right : Value) :
    Evaluates bindings qualifiers (op.apply source left right) := by
  cases op with
  | union =>
    change Evaluates bindings qualifiers (merge source left right)
    unfold merge
    split
    · exact .ok _
    · exact .error trivial
    · exact .error trivial
  | _ => exact .ok _

theorem evaluates_callFunction (source : Ranked) (root : Site) (focus : Focus) (name : String)
    (arguments : List Value) :
    Evaluates bindings qualifiers (callFunction source root focus name arguments) := by
  have hnodes : ∀ value, Evaluates bindings qualifiers (requireNodes name value) := by
    intro value
    cases value with
    | nodes sites => exact .ok sites
    | scalar x => exact .error trivial
  have hargument : Evaluates bindings qualifiers (nodeArgument source focus name arguments) := by
    cases arguments with
    | nil => exact .ok _
    | cons value more => exact (hnodes value).map _
  unfold callFunction
  split
  · unfold CoreFunction.apply
    split <;> first | exact .ok _ | exact (hnodes _).map _ | exact hargument.map _ |
      exact .error trivial
  · exact .error trivial

theorem failsOnlyWith_keepWhere {test : Focus → Except Error Value}
    (h : ∀ focus, FailsOnlyWith P (test focus)) (size : Nat) (sites : List Site) (position : Nat) :
    FailsOnlyWith P (keepWhere test size position sites) := by
  induction sites generalizing position with
  | nil => exact .ok []
  | cons site sites ih => exact (h _).bind fun value => (ih _).bind fun more => .ok _

mutual

/-- Whatever is reached, evaluation never finds that a query cannot be read, nor that a prefix is not
bound which the expression does not use. -/
theorem evaluates_evaluate (s : Setting) : ∀ (e : Expr) (focus : Focus), e.qualifiers ⊆ qualifiers →
    Evaluates s.bindings qualifiers (evaluate s focus e)
  | .literal value, focus, _ => by
    rw [evaluate]
    exact .ok _
  | .number value, focus, _ => by
    rw [evaluate]
    exact .ok _
  | .relative steps, focus, h => by
    rw [evaluate]
    exact (evaluates_takeSteps s steps _ h).map _
  | .absolute steps, focus, h => by
    rw [evaluate]
    exact (evaluates_takeSteps s steps _ h).map _
  | .continued start steps, focus, h => by
    obtain ⟨hstart, hsteps⟩ := List.append_subset.mp h
    rw [evaluate]
    refine (evaluates_evaluate s start focus hstart).bind fun value => ?_
    cases value with
    | nodes sites => exact (evaluates_takeSteps s steps sites hsteps).map _
    | scalar x => exact .error trivial
  | .call name arguments, focus, h => by
    rw [evaluate]
    -- a function uses no prefixes, whatever its name is
    exact (evaluates_evaluateAll s arguments focus h).bind fun values =>
      evaluates_callFunction _ _ _ _ _
  | .binary op left right, focus, h => by
    obtain ⟨hleft, hright⟩ := List.append_subset.mp h
    rw [evaluate]
    exact (evaluates_evaluate s left focus hleft).bind fun _ =>
      (evaluates_evaluate s right focus hright).bind fun _ => evaluates_operator _ _ _ _
  | .negate operand, focus, h => by
    rw [evaluate]
    exact (evaluates_evaluate s operand focus h).bind fun _ => .ok _
  | .filter operand predicates, focus, h => by
    obtain ⟨hoperand, hpredicates⟩ := List.append_subset.mp h
    rw [evaluate]
    refine (evaluates_evaluate s operand focus hoperand).bind fun value => ?_
    cases value with
    | nodes sites => exact (evaluates_keepAll s predicates _ hpredicates).map _
    | scalar x => exact .error trivial

theorem evaluates_evaluateAll (s : Setting) :
    ∀ (es : List Expr) (focus : Focus), listQualifiers es ⊆ qualifiers →
      Evaluates s.bindings qualifiers (evaluateAll s focus es)
  | [], _, _ => by
    rw [evaluateAll]
    exact .ok []
  | e :: es, focus, h => by
    obtain ⟨he, hes⟩ := List.append_subset.mp h
    rw [evaluateAll]
    exact (evaluates_evaluate s e focus he).bind fun _ =>
      (evaluates_evaluateAll s es focus hes).bind fun _ => .ok _

theorem evaluates_keepAll (s : Setting) :
    ∀ (predicates : List Expr) (sites : List Site), listQualifiers predicates ⊆ qualifiers →
      Evaluates s.bindings qualifiers (keepAll s predicates sites)
  | [], sites, _ => by
    rw [keepAll]
    exact .ok sites
  | predicate :: rest, sites, h => by
    obtain ⟨hpredicate, hrest⟩ := List.append_subset.mp h
    rw [keepAll]
    exact (failsOnlyWith_keepWhere (fun focus => evaluates_evaluate s predicate focus hpredicate)
      _ _ _).bind fun kept => evaluates_keepAll s rest kept hrest

theorem evaluates_takeStep (s : Setting) :
    ∀ (step : Step) (sites : List Site), step.qualifiers ⊆ qualifiers →
      Evaluates s.bindings qualifiers (takeStep s step sites)
  | .mk axis test predicates, sites, h => by
    obtain ⟨htest, hpredicates⟩ := List.append_subset.mp h
    rw [takeStep]
    exact (evaluates_resolve htest).bind fun _ =>
      (FailsOnlyWith.mapM (fun _ => evaluates_keepAll s predicates _ hpredicates) sites).bind
        fun _ => .ok _

theorem evaluates_takeSteps (s : Setting) :
    ∀ (steps : List Step) (sites : List Site), stepsQualifiers steps ⊆ qualifiers →
      Evaluates s.bindings qualifiers (takeSteps s steps sites)
  | [], sites, _ => by
    rw [takeSteps]
    exact .ok sites
  | step :: rest, sites, h => by
    obtain ⟨hstep, hrest⟩ := List.append_subset.mp h
    rw [takeSteps]
    exact (evaluates_takeStep s step sites hstep).bind fun found =>
      evaluates_takeSteps s rest found hrest

end

section Selection

variable {focus : Focus} {context : Site} {query : String} {e : Expr} {q : String}

theorem evaluate_ne_unparsed {rest : Option String} :
    evaluate s focus e ≠ .error (.unparsed query rest) :=
  fun h => evaluates_evaluate s e focus (List.Subset.refl _) _ h

/-- Evaluation fails for a prefix only if the expression uses it and nothing binds it. -/
theorem unbound_of_evaluate (h : evaluate s focus e = .error (.unboundQualifier q)) :
    q ∈ e.qualifiers ∧ q ≠ "xml" ∧ s.bindings.lookup q = none :=
  evaluates_evaluate s e focus (List.Subset.refl _) _ h

/-- Where all prefixes of an expression are bound, none is missed on the way. -/
theorem evaluate_ne_unbound (h : unbound? s.bindings e = none) :
    evaluate s focus e ≠ .error (.unboundQualifier q) := by
  intro herror
  obtain ⟨hused, hxml, hnone⟩ := unbound_of_evaluate herror
  have hbound := List.find?_eq_none.mp h q hused
  simp [hxml, hnone] at hbound

/-- A query that can be read fails for the prefix that the check finds, or else like the evaluation of
its expression, or because its value is no node-set. -/
theorem select_eq_error (hp : parse query = .ok e) {failure : Error} :
    select s context query = .error failure ↔
      (∃ q, unbound? s.bindings e = some q ∧ failure = .unboundQualifier q) ∨
      (unbound? s.bindings e = none ∧
        (evaluate s { site := context } e = .error failure ∨
          (∃ value, evaluate s { site := context } e = .ok (.scalar value)) ∧
            failure = .selectsValue query)) := by
  rw [select, hp]
  cases hbound : unbound? s.bindings e with
  | some q => simpa [bind, Except.bind, hbound] using eq_comm
  | none =>
    cases hvalue : evaluate s { site := context } e with
    | error e' => simp [bind, Except.bind, hbound, hvalue]
    | ok value =>
      cases value with
      | nodes sites => simp [bind, Except.bind, hbound, hvalue]
      | scalar value => simpa [bind, Except.bind, hbound, hvalue] using eq_comm

/-- A query cannot be read exactly if its text is no expression. -/
theorem select_unparsed_iff (s : Setting) (context : Site) {query : String} :
    (∃ text rest, select s context query = .error (.unparsed text rest)) ↔
      ¬ ∃ e, parse query = .ok e := by
  constructor
  · rintro ⟨text, rest, herror⟩ ⟨e, he⟩
    rcases (select_eq_error he).mp herror with ⟨_, -, hq⟩ | ⟨-, hevaluate | ⟨-, hvalue⟩⟩
    · cases hq
    · exact evaluate_ne_unparsed hevaluate
    · cases hvalue
  · intro hnone
    have herror : ∃ rest, parse query = .error (.unparsed query rest) := by
      cases hread : parse query with
      | ok e => exact absurd ⟨e, hread⟩ hnone
      | error _ =>
        unfold parse at hread
        split at hread <;> cases hread <;> exact ⟨_, rfl⟩
    obtain ⟨rest, herror⟩ := herror
    exact ⟨query, rest, by rw [select, herror]; rfl⟩

end Selection

/-- The check for unbound prefixes is complete. Wherever an expression is evaluated, it fails for a
prefix only if it uses the prefix, and neither is that the prefix of XML itself nor is it bound. So a
query that can be read fails for a prefix exactly if that is the first one of its expression which is
not bound, whether or not a step with it is reached; once the check is passed, no prefix is missed. -/
theorem unbound_found_by_check (s : Setting) :
    (∀ e focus q, evaluate s focus e = .error (.unboundQualifier q) →
      q ∈ e.qualifiers ∧ q ≠ "xml" ∧ s.bindings.lookup q = none) ∧
    ∀ query e, parse query = .ok e →
      (∀ context q, select s context query = .error (.unboundQualifier q) ↔
        unbound? s.bindings e = some q) ∧
      (unbound? s.bindings e = none →
        ∀ focus q, evaluate s focus e ≠ .error (.unboundQualifier q)) := by
  refine ⟨fun e focus q => unbound_of_evaluate, fun query e hp => ⟨fun context q => ?_, ?_⟩⟩
  · rw [select_eq_error hp]
    constructor
    · rintro (⟨_, hq, hsame⟩ | ⟨hbound, hevaluate | ⟨-, hvalue⟩⟩)
      · exact hq.trans (congrArg some (Error.unboundQualifier.inj hsame).symm)
      · exact absurd hevaluate (evaluate_ne_unbound hbound)
      · cases hvalue
    · exact fun hq => .inl ⟨q, hq, rfl⟩
  · exact fun hbound focus q => evaluate_ne_unbound hbound

def unreached : Expr := (parse "x[a:y]").toOption.getD default

/-- In a document without elements the step with the prefix is never reached, and evaluation succeeds;
the check finds the prefix all the same. Where such a step is reached, evaluation fails for it. -/
theorem unbound_found_by_check_unreached :
    parse "x[a:y]" = .ok unreached ∧
    (evaluate { source := .of .empty } { site := .document } unreached).isOk = true ∧
    select { source := .of .empty } .document "x[a:y]" = .error (.unboundQualifier "a") ∧
    evaluate { source := .of .empty } { site := .document }
      (.relative [.mk .child (.name (some "a") "y") []]) = .error (.unboundQualifier "a") ∧
    "a" ≠ "xml" ∧ ([] : Bindings).lookup "a" = none := by
  have hvalues : (parse "x[a:y]").isOk = true ∧ unbound? [] unreached = some "a" ∧
      (evaluate { source := .of .empty } { site := .document } unreached).isOk = true := by
    decide +kernel
  obtain ⟨hok, hcheck, hevaluate⟩ := hvalues
  have hparse : parse "x[a:y]" = .ok unreached := by
    unfold unreached
    cases hread : parse "x[a:y]" with
    | ok e => rfl
    | error e => simp [hread, Except.isOk, Except.toBool] at hok
  have hfails : evaluate { source := .of .empty } { site := .document }
      (.relative [.mk .child (.name (some "a") "y") []]) = .error (.unboundQualifier "a") := rfl
  obtain ⟨hused, hselect⟩ := unbound_found_by_check { source := .of .empty }
  exact ⟨hparse, hevaluate, ((hselect _ _ hparse).1 _ _).mpr hcheck, hfails, (hused _ _ _ hfails).2⟩

end MarkupQuery.Query
