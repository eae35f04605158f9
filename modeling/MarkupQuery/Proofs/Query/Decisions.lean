import MarkupQuery.Proofs.Query.Steps
import MarkupQuery.Proofs.Query.Union
import Mathlib.Data.List.Forall2

namespace MarkupQuery.Query

open MarkupQuery.Text MarkupQuery.Tree

variable {s : Setting} {focus : Focus} {source : Ranked} {root : Site} {es : List Expr}
  {values : List Value}

theorem evaluateAll_eq_ok : evaluateAll s focus es = .ok values ↔
    List.Forall₂ (fun e value => evaluate s focus e = .ok value) es values := by
  induction es generalizing values with
  | nil => simp [evaluateAll, eq_comm]
  | cons e es ih =>
    simp only [evaluateAll, bind_eq_ok, pure, Except.pure, Except.ok.injEq, ih]
    constructor
    · rintro ⟨value, hvalue, more, hmore, rfl⟩
      exact .cons hvalue hmore
    · rintro (_ | ⟨hvalue, hmore⟩)
      exact ⟨_, hvalue, _, hmore, rfl⟩

theorem evaluate_call {name : String}
    (h : List.Forall₂ (fun e value => evaluate s focus e = .ok value) es values) :
    evaluate s focus (.call name es) = callFunction s.source s.root focus name values := by
  rw [evaluate, evaluateAll_eq_ok.mpr h]
  rfl

theorem callFunction_contains (whole part : Value) :
    callFunction source root focus "contains" [whole, part] =
      .ok (.boolean (Text.contains (whole.toText source.document).toList
        (part.toText source.document).toList)) := rfl

theorem callFunction_concat (first second : Value) (more : List Value) :
    callFunction source root focus "concat" (first :: second :: more) =
      .ok (.text (String.join ((first :: second :: more).map (Value.toText source.document)))) := rfl

theorem callFunction_normalizeSpace (value : Value) :
    callFunction source root focus "normalize-space" [value] =
      .ok (.text (String.ofList (joinWith [' '] (words (value.toText source.document).toList)))) :=
  rfl

/-- A node-set equals a text if one of its sites has that value. -/
theorem equals_text (doc : Document) (sites : List Site) (text : String) :
    Value.compare doc .equals (.nodes sites) (.text text) = true ↔
      text ∈ sites.map (Site.value doc) := by
  simp [Value.compare, Value.comparands, Value.text, Scalar.compare, Scalar.equals]

/-- The value at a site is a truth value, wherever the site stands in a list, and says whether `P`
holds. -/
def Decides (s : Setting) (e : Expr) (site : Site) (P : Prop) : Prop :=
  ∀ position size, ∃ b, evaluate s ⟨site, position, size⟩ e = .ok (.boolean b) ∧ (b = true ↔ P)

theorem Decides.congr {e : Expr} {site : Site} {P Q : Prop} (h : Decides s e site P)
    (hPQ : P ↔ Q) : Decides s e site Q := by
  intro position size
  obtain ⟨b, hb, hP⟩ := h position size
  exact ⟨b, hb, hP.trans hPQ⟩

theorem keepWhere_of_decides {e : Expr} {P : Site → Prop} {sites : List Site}
    (h : ∀ site ∈ sites, Decides s e site (P site)) (size position : Nat) :
    ∃ kept, keepWhere (fun focus => evaluate s focus e) size position sites = .ok kept ∧
      ∀ site, site ∈ kept ↔ site ∈ sites ∧ P site := by
  induction sites generalizing position with
  | nil => exact ⟨[], rfl, by simp⟩
  | cons first sites ih =>
    obtain ⟨hfirst, hrest⟩ := List.forall_mem_cons.mp h
    obtain ⟨b, hb, hP⟩ := hfirst position size
    obtain ⟨more, hmore, hmem⟩ := ih hrest (position + 1)
    refine ⟨if b then first :: more else more, ?_, fun site => ?_⟩
    · rw [keepWhere, hb, hmore]
      rfl
    · cases b with
      | true =>
        have hholds : P first := hP.mp rfl
        rw [if_pos rfl, List.mem_cons, List.mem_cons, hmem]
        constructor
        · rintro (rfl | ⟨hsite, hkeep⟩)
          · exact ⟨.inl rfl, hholds⟩
          · exact ⟨.inr hsite, hkeep⟩
        · rintro ⟨rfl | hsite, hkeep⟩
          · exact .inl rfl
          · exact .inr ⟨hsite, hkeep⟩
      | false =>
        have hfails : ¬ P first := fun hholds => absurd (hP.mpr hholds) (by simp)
        rw [if_neg (by simp), List.mem_cons, hmem]
        constructor
        · rintro ⟨hsite, hkeep⟩
          exact ⟨.inr hsite, hkeep⟩
        · rintro ⟨rfl | hsite, hkeep⟩
          · exact absurd hkeep hfails
          · exact ⟨hsite, hkeep⟩

/-- Predicates that are true or false at every site keep those at which all of them are true. -/
theorem keepAll_of_decides {α : Type} {expr : α → Expr} {P : α → Site → Prop} {as : List α}
    {sites : List Site} (h : ∀ a ∈ as, ∀ site ∈ sites, Decides s (expr a) site (P a site)) :
    ∃ kept, keepAll s (as.map expr) sites = .ok kept ∧
      ∀ site, site ∈ kept ↔ site ∈ sites ∧ ∀ a ∈ as, P a site := by
  induction as generalizing sites with
  | nil => exact ⟨sites, keepAll_nil s sites, by simp⟩
  | cons a as ih =>
    obtain ⟨hfirst, hrest⟩ := List.forall_mem_cons.mp h
    obtain ⟨passed, hpassed, hmem⟩ := keepWhere_of_decides hfirst sites.length 1
    obtain ⟨kept, hkept, hkeep⟩ := ih fun a ha site hsite => hrest a ha site ((hmem site).mp hsite).1
    refine ⟨kept, keepAll_cons.mpr ⟨passed, hpassed, hkept⟩, fun site => ?_⟩
    rw [hkeep, hmem, List.forall_mem_cons, and_assoc]

theorem mem_mergeFound {axis : Axis} {lists : List (List Site)} (site : Site) :
    site ∈ mergeFound source axis lists ↔ site ∈ lists.flatten := by
  unfold mergeFound
  split
  · exact Ranked.mem_ordered site lists.flatten
  · rfl

/-- What a step finds, from what it finds from each of the sites. -/
theorem takeStep_of_foundFrom {axis : Axis} {test : NodeTest} {resolved : ResolvedTest}
    {predicates : List Expr} {P : Site → Site → Prop} {sites : List Site}
    (ht : test.resolve s.bindings = .ok resolved)
    (hf : ∀ start ∈ sites, ∃ one, foundFrom s axis resolved predicates start = .ok one ∧
      ∀ site, site ∈ one ↔ P start site) :
    ∃ found, takeStep s (.mk axis test predicates) sites = .ok found ∧
      ∀ site, site ∈ found ↔ ∃ start ∈ sites, P start site := by
  obtain ⟨lists, hlists, hmem⟩ : ∃ lists,
      List.Forall₂ (fun site one => foundFrom s axis resolved predicates site = .ok one)
        sites lists ∧ ∀ site, site ∈ lists.flatten ↔ ∃ start ∈ sites, P start site := by
    induction sites with
    | nil => exact ⟨[], .nil, by simp⟩
    | cons start sites ih =>
      obtain ⟨hstart, hrest⟩ := List.forall_mem_cons.mp hf
      obtain ⟨one, hone, hP⟩ := hstart
      obtain ⟨lists, hlists, hmem⟩ := ih hrest
      refine ⟨one :: lists, .cons hone hlists, fun site => ?_⟩
      rw [List.flatten_cons, List.mem_append, hP, hmem]
      simp
  refine ⟨_, takeStep_eq_ok.mpr ⟨resolved, lists, ht, hlists, rfl⟩, fun site => ?_⟩
  rw [mem_mergeFound, hmem]

/-- A step to all nodes of an axis finds what the axis leads to. -/
theorem takeStep_node (s : Setting) (axis : Axis) (sites : List Site) :
    ∃ found, takeStep s (.mk axis (.type .node) []) sites = .ok found ∧
      ∀ site, site ∈ found ↔ ∃ start ∈ sites, site ∈ axis.sites s.source.document start := by
  have hresolved : NodeTest.resolve s.bindings (.type .node) = .ok (.type .node) := rfl
  refine takeStep_of_foundFrom hresolved fun start _ => ⟨_, keepAll_nil _ _, fun site => ?_⟩
  simp [ResolvedTest.admits, NodeType.admits]

theorem takeStep_anywhereBelow (s : Setting) (sites : List Site) :
    ∃ found, takeStep s Step.anywhereBelow sites = .ok found ∧
      ∀ site, site ∈ found ↔ ∃ start ∈ sites, site ∈ start.subtree s.source.document :=
  takeStep_node s .descendantOrSelf sites

theorem qualifiers_unionOf (first : Expr) (more : List Expr) :
    (unionOf first more).qualifiers = (first :: more).flatMap Expr.qualifiers := by
  induction more using List.reverseRecOn with
  | nil => simp [unionOf]
  | append_singleton more last ih =>
    rw [unionOf_concat, Expr.qualifiers, ih]
    simp

/-- A union of paths has the sites of all of them. -/
theorem evaluate_unionOf {α : Type} {expr : α → Expr} {P : α → Site → Prop} {first : α}
    {more : List α} (h : ∀ a ∈ first :: more, ∃ sites, evaluate s focus (expr a) = .ok (.nodes sites) ∧
      ∀ site, site ∈ sites ↔ P a site) :
    ∃ sites, evaluate s focus (unionOf (expr first) (more.map expr)) = .ok (.nodes sites) ∧
      ∀ site, site ∈ sites ↔ ∃ a ∈ first :: more, P a site := by
  induction more using List.reverseRecOn with
  | nil =>
    obtain ⟨sites, hsites, hmem⟩ := h first List.mem_cons_self
    exact ⟨sites, hsites, by simpa using hmem⟩
  | append_singleton more last ih =>
    obtain ⟨left, hleft, hmore⟩ := ih fun a ha => h a (by simp at ha ⊢; tauto)
    obtain ⟨right, hright, hlast⟩ := h last (by simp)
    refine ⟨s.source.ordered (left ++ right), ?_, fun site => ?_⟩
    · rw [List.map_append, List.map_singleton, unionOf_concat, evaluate, hleft, hright]
      rfl
    · rw [Ranked.mem_ordered, List.mem_append, hmore, hlast, ← List.cons_append]
      simp [or_and_right, exists_or, or_assoc]

end MarkupQuery.Query
