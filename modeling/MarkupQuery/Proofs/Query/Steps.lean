import MarkupQuery.Query.Evaluate
import Mathlib.Data.List.Forall2

namespace MarkupQuery.Query

variable {α β ε : Type} {s : Setting}

theorem bind_eq_ok {x : Except ε α} {f : α → Except ε β} {b : β} :
    (x >>= f) = .ok b ↔ ∃ a, x = .ok a ∧ f a = .ok b := by
  cases x <;> simp [bind, Except.bind]

theorem map_eq_ok {x : Except ε α} {f : α → β} {b : β} :
    x.map f = .ok b ↔ ∃ a, x = .ok a ∧ f a = b := by
  cases x <;> simp [Except.map]

theorem mapM_eq_ok {f : α → Except ε β} {as : List α} {bs : List β} :
    as.mapM f = .ok bs ↔ List.Forall₂ (fun a b => f a = .ok b) as bs := by
  induction as generalizing bs with
  | nil => simp [pure, Except.pure, eq_comm]
  | cons a as ih =>
    simp only [List.mapM_cons, bind_eq_ok, pure, Except.pure, Except.ok.injEq, ih]
    constructor
    · rintro ⟨b, hb, rest, hrest, rfl⟩
      exact .cons hb hrest
    · rintro (_ | ⟨hb, hrest⟩)
      exact ⟨_, hb, _, hrest, rfl⟩

theorem mapM_concat_eq_ok {f : α → Except ε β} {as : List α} {a : α} {bs : List β} :
    (as ++ [a]).mapM f = .ok bs ↔
      ∃ front last, as.mapM f = .ok front ∧ f a = .ok last ∧ front ++ [last] = bs := by
  simp only [List.mapM_append, List.mapM_cons, List.mapM_nil, bind_eq_ok, pure, Except.pure,
    Except.ok.injEq]
  grind

theorem exists_of_mem_mapM {f : α → Except ε β} {as : List α} {bs : List β} {b : β}
    (h : as.mapM f = .ok bs) (hb : b ∈ bs) : ∃ a ∈ as, f a = .ok b := by
  have hall := mapM_eq_ok.mp h
  clear h
  induction hall with
  | nil => cases hb
  | @cons a first as bs hfirst _ ih =>
    rcases List.mem_cons.mp hb with rfl | hb
    · exact ⟨a, List.mem_cons_self, hfirst⟩
    · obtain ⟨a, ha, hf⟩ := ih hb
      exact ⟨a, List.mem_cons_of_mem _ ha, hf⟩

theorem toOption_eq_some {x : Except ε α} {a : α} : x.toOption = some a ↔ x = .ok a := by
  cases x <;> simp [Except.toOption]

theorem keepWhere_sublist {test : Focus → Except Error Value} {size position : Nat}
    {sites kept : List Site} (h : keepWhere test size position sites = .ok kept) :
    kept.Sublist sites := by
  induction sites generalizing position kept with
  | nil =>
    obtain rfl := Except.ok.inj h
    exact .slnil
  | cons site rest ih =>
    rw [keepWhere] at h
    simp only [bind_eq_ok, pure, Except.pure, Except.ok.injEq] at h
    obtain ⟨value, -, more, hmore, rfl⟩ := h
    split
    · exact (ih hmore).cons_cons site
    · exact (ih hmore).cons site

theorem keepAll_nil (s : Setting) (sites : List Site) : keepAll s [] sites = .ok sites := by
  simp [keepAll]

theorem keepAll_cons {predicate : Expr} {rest : List Expr} {sites kept : List Site} :
    keepAll s (predicate :: rest) sites = .ok kept ↔
      ∃ passed, keepWhere (fun focus => evaluate s focus predicate) sites.length 1 sites =
        .ok passed ∧ keepAll s rest passed = .ok kept := by
  rw [keepAll, bind_eq_ok]

/-- Predicates only leave sites out. -/
theorem keepAll_sublist {predicates : List Expr} {sites kept : List Site}
    (h : keepAll s predicates sites = .ok kept) : kept.Sublist sites := by
  induction predicates generalizing sites with
  | nil =>
    rw [keepAll_nil, Except.ok.injEq] at h
    exact h ▸ .refl _
  | cons predicate rest ih =>
    obtain ⟨passed, hpassed, hrest⟩ := keepAll_cons.mp h
    exact (ih hrest).trans (keepWhere_sublist hpassed)

/-- What a step finds from one site: the sites on its axis that pass its test and predicates. -/
def foundFrom (s : Setting) (axis : Axis) (test : ResolvedTest) (predicates : List Expr)
    (site : Site) : Except Error (List Site) :=
  keepAll s predicates
    ((axis.sites s.source.document site).filter (test.admits s.source.document axis))

theorem foundFrom_sublist {axis : Axis} {test : ResolvedTest}
    {predicates : List Expr} {site : Site} {found : List Site}
    (h : foundFrom s axis test predicates site = .ok found) :
    found.Sublist (axis.sites s.source.document site) :=
  (keepAll_sublist h).trans List.filter_sublist

theorem takeStep_eq (s : Setting) (axis : Axis) (test : NodeTest) (predicates : List Expr)
    (sites : List Site) : takeStep s (.mk axis test predicates) sites = (do
      let test ← test.resolve s.bindings
      let found ← sites.mapM (foundFrom s axis test predicates)
      pure (mergeFound s.source axis found)) := by
  simp only [takeStep]
  rfl

theorem takeStep_eq_ok {axis : Axis} {test : NodeTest} {predicates : List Expr}
    {sites result : List Site} : takeStep s (.mk axis test predicates) sites = .ok result ↔
      ∃ resolved found, test.resolve s.bindings = .ok resolved ∧
        List.Forall₂ (fun site one => foundFrom s axis resolved predicates site = .ok one)
          sites found ∧ mergeFound s.source axis found = result := by
  simp only [takeStep_eq, bind_eq_ok, mapM_eq_ok, pure, Except.pure, Except.ok.injEq,
    exists_and_left]

theorem takeSteps_nil (s : Setting) (sites : List Site) : takeSteps s [] sites = .ok sites := by
  simp [takeSteps]

theorem takeSteps_cons (s : Setting) (step : Step) (rest : List Step) (sites : List Site) :
    takeSteps s (step :: rest) sites = takeStep s step sites >>= takeSteps s rest := by
  rw [takeSteps]

/-- Steps taken one after the other can be taken in two goes. -/
theorem takeSteps_append (s : Setting) (first rest : List Step) (sites : List Site) :
    takeSteps s (first ++ rest) sites = takeSteps s first sites >>= takeSteps s rest := by
  induction first generalizing sites with
  | nil =>
    rw [List.nil_append, takeSteps_nil]
    rfl
  | cons step first ih =>
    rw [List.cons_append, takeSteps_cons, takeSteps_cons]
    cases takeStep s step sites with
    | error e => rfl
    | ok found => exact ih found

def Step.here : Step := .mk .self (.type .node) []

theorem takeStep_here (s : Setting) (site : Site) : takeStep s Step.here [site] = .ok [site] := by
  rw [Step.here, takeStep_eq_ok]
  refine ⟨.type .node, [[site]], rfl, .cons ?_ .nil, rfl⟩
  simp [foundFrom, Axis.sites, ResolvedTest.admits, NodeType.admits, keepAll_nil]

theorem stepsQualifiers_append (steps more : List Step) :
    stepsQualifiers (steps ++ more) = stepsQualifiers steps ++ stepsQualifiers more := by
  induction steps with
  | nil => simp [stepsQualifiers]
  | cons step steps ih => simp [stepsQualifiers, ih]

theorem mem_listQualifiers {qualifier : String} {es : List Expr} :
    qualifier ∈ listQualifiers es ↔ ∃ e ∈ es, qualifier ∈ e.qualifiers := by
  induction es with
  | nil => simp [listQualifiers]
  | cons e es ih => simp [listQualifiers, ih]

theorem mem_stepsQualifiers {qualifier : String} {steps : List Step} :
    qualifier ∈ stepsQualifiers steps ↔ ∃ step ∈ steps, qualifier ∈ step.qualifiers := by
  induction steps with
  | nil => simp [stepsQualifiers]
  | cons step steps ih => simp [stepsQualifiers, ih]

/-- What a query selects is what the expression that it is parsed as evaluates to. -/
theorem select_eq_ok {context : Site} {query : String} {sites : List Site} :
    select s context query = .ok sites ↔ ∃ e, parse query = .ok e ∧
      unbound? s.bindings e = none ∧ evaluate s { site := context } e = .ok (.nodes sites) := by
  rw [select, bind_eq_ok]
  refine exists_congr fun e => and_congr_right fun _ => ?_
  cases unbound? s.bindings e with
  | some qualifier => simp
  | none =>
    simp only [bind_eq_ok, true_and]
    constructor
    · rintro ⟨value, hvalue, hsites⟩
      cases value with
      | nodes found => rw [hvalue, Except.ok.inj hsites]
      | scalar value => simp at hsites
    · intro hvalue
      exact ⟨.nodes sites, hvalue, rfl⟩

end MarkupQuery.Query
