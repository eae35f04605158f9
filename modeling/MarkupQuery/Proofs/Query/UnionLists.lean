import MarkupQuery.Proofs.Query.Decisions
import MarkupQuery.Proofs.Query.Endings
import MarkupQuery.Proofs.Query.Heads
import MarkupQuery.Proofs.Query.NodeSets

namespace MarkupQuery.Query

open MarkupQuery.Text MarkupQuery.Page

variable {s : Setting} {focus : Focus} {e first : Expr} {es es' more : List Expr}
  {sites : List Site} {q q' text r : List Char}

section Values

/-- What predicates are applied to has nodes. -/
theorem nodes_of_filter {predicates : List Expr}
    (h : evaluate s focus (.filter e predicates) = .ok (.nodes sites)) :
    ∃ found, evaluate s focus e = .ok (.nodes found) := by
  rw [evaluate, bind_eq_ok] at h
  obtain ⟨value, hvalue, h⟩ := h
  cases value with
  | nodes found => exact ⟨found, hvalue⟩
  | scalar x => cases h

theorem nodes_of_continued {steps : List Step}
    (h : evaluate s focus (.continued e steps) = .ok (.nodes sites)) :
    ∃ found, evaluate s focus e = .ok (.nodes found) := by
  rw [evaluate, bind_eq_ok] at h
  obtain ⟨value, hvalue, h⟩ := h
  cases value with
  | nodes found => exact ⟨found, hvalue⟩
  | scalar x => cases h

/-- A numeral, possibly with predicates and steps behind it. -/
inductive OfNumber : Expr → Prop
  | number (x : Float) : OfNumber (.number x)
  | filter {e : Expr} (h : OfNumber e) (predicates : List Expr) : OfNumber (.filter e predicates)
  | continued {e : Expr} (h : OfNumber e) (steps : List Step) : OfNumber (.continued e steps)

/-- A numeral has no nodes, whatever stands behind it. -/
theorem OfNumber.evaluate_ne (h : OfNumber e) : evaluate s focus e ≠ .ok (.nodes sites) := by
  induction h generalizing sites with
  | number x => simp [evaluate, Value.number]
  | filter _ predicates ih =>
    intro he
    obtain ⟨found, hfound⟩ := nodes_of_filter he
    exact ih hfound
  | continued _ steps ih =>
    intro he
    obtain ⟨found, hfound⟩ := nodes_of_continued he
    exact ih hfound

theorem primary_of_numeral {x : Float} {t : List Char}
    (h : Number.numeral? (skipSpace text) = some (x, t)) (nested : Reader Expr) :
    primary nested text = some (.number x, skipSpace t) := by
  simp [primary, Reader.spaced, Reader.orElse, Reader.map, h]

theorem filtered_of_numeral (hn : Number.numeral? (skipSpace text) ≠ none) :
    ∃ e r, filtered expression text = some (e, r) ∧ OfNumber e ∧ e.isPath = false := by
  obtain ⟨⟨x, t⟩, hx⟩ := Option.ne_none_iff_exists'.mp hn
  obtain ⟨predicates, r, hpredicates⟩ := exists_many (predicate expression) (skipSpace t)
  have hboth : Reader.both (primary expression) (.many (predicate expression)) text =
      some ((.number x, predicates), r) :=
    both_eq_some.mpr ⟨_, primary_of_numeral hx expression, hpredicates⟩
  refine ⟨_, r, map_eq_some.mpr ⟨_, hboth, rfl⟩, ?_⟩
  dsimp only
  split
  · exact ⟨.number x, rfl⟩
  · exact ⟨.filter (.number x) predicates, rfl⟩

/-- A path that begins with a numeral is one of a number. -/
theorem ofNumber_of_path (h : path expression text = some (e, r))
    (hn : Number.numeral? (skipSpace text) ≠ none) : OfNumber e := by
  obtain ⟨⟨start, steps⟩, hboth, rfl⟩ := map_eq_some.mp h
  obtain ⟨u, hstart, -⟩ := both_eq_some.mp hboth
  obtain ⟨e, v, hfiltered, hnumber, hpath⟩ := filtered_of_numeral hn
  simp only [Reader.orElse, hfiltered, Option.some.injEq, Prod.mk.injEq] at hstart
  obtain ⟨rfl, -⟩ := hstart
  have hcontinued := continueBy_of_not_path hpath steps
  dsimp only
  rcases hcontinued with he | he <;> rw [he]
  · exact hnumber
  · exact .continued hnumber steps

def Finds (s : Setting) (focus : Focus) (e : Expr) (site : Site) : Prop :=
  ∃ found, evaluate s focus e = .ok (.nodes found) ∧ site ∈ found

theorem finds_iff (h : evaluate s focus e = .ok (.nodes sites)) (site : Site) :
    Finds s focus e site ↔ site ∈ sites := by
  refine ⟨?_, fun hsite => ⟨sites, h, hsite⟩⟩
  rintro ⟨found, hfound, hsite⟩
  rw [h] at hfound
  cases hfound
  exact hsite

/-- A union of expressions that have nodes has the nodes of all of them. -/
theorem exists_nodes_unionOf
    (h : ∀ e ∈ first :: more, ∃ found, evaluate s focus e = .ok (.nodes found)) :
    ∃ sites, evaluate s focus (unionOf first more) = .ok (.nodes sites) ∧
      ∀ site, site ∈ sites ↔ ∃ e ∈ first :: more, Finds s focus e site := by
  have heach : ∀ e ∈ first :: more, ∃ found, evaluate s focus (id e) = .ok (.nodes found) ∧
      ∀ site, site ∈ found ↔ Finds s focus e site := fun e he => by
    obtain ⟨found, hfound⟩ := h e he
    exact ⟨found, hfound, fun site => (finds_iff hfound site).symm⟩
  simpa using evaluate_unionOf heach

/-- Conversely, the operands of a union that has nodes have nodes. -/
theorem nodes_of_unionOf (h : evaluate s focus (unionOf first more) = .ok (.nodes sites)) :
    ∀ e ∈ first :: more, ∃ found, evaluate s focus e = .ok (.nodes found) := by
  induction more using List.reverseRecOn generalizing sites with
  | nil => simpa using ⟨sites, h⟩
  | append_singleton more last ih =>
    rw [unionOf_concat, evaluate] at h
    simp only [bind_eq_ok] at h
    obtain ⟨_, hleft, _, hright, hop⟩ := h
    obtain ⟨lefts, rights, rfl, rfl, -⟩ := nodes_of_operator hop
    intro e he
    rw [← List.cons_append, List.mem_append, List.mem_singleton] at he
    rcases he with he | rfl
    · exact ih hleft e he
    · exact ⟨rights, hright⟩

theorem mem_unionOf (h : evaluate s focus (unionOf first more) = .ok (.nodes sites)) (site : Site) :
    site ∈ sites ↔ ∃ e ∈ first :: more, Finds s focus e site := by
  obtain ⟨found, hfound, hmem⟩ := exists_nodes_unionOf (nodes_of_unionOf h)
  rw [h] at hfound
  cases hfound
  exact hmem site

theorem isUnion_of_nodes (h : evaluate s focus e = .ok (.nodes sites)) : IsUnion e := by
  cases e with
  | binary op left right =>
    simp only [evaluate, bind_eq_ok] at h
    obtain ⟨_, -, _, -, hop⟩ := h
    cases op with
    | union => rfl
    | _ => simp [BinaryOp.apply, Value.boolean, Value.number] at hop
  | negate operand => simp [evaluate, bind_eq_ok, pure, Except.pure, Value.number] at h
  | _ => trivial

end Values

theorem ne_nil_of_operands (h : Operands text es) : text ≠ [] := by
  rintro rfl
  have hnone : path expression [] = none := rfl
  cases h with
  | last hread => simp [hnone] at hread
  | more hread => simp [hnone] at hread

theorem branchEnd_of_bar {t s : List Char} (h : skipSpace t = '|' :: s) : BranchEnd t := by
  intro c hc
  rw [h] at hc
  exact (Option.some.inj hc).symm

theorem skipSpace_append_of_ne_nil {t : List Char} (h : skipSpace t ≠ []) (u : List Char) :
    skipSpace (t ++ u) = skipSpace t ++ u := by
  rw [skipSpace, List.dropWhile_append]
  split
  · rename_i hempty
    exact absurd (List.isEmpty_iff.mp hempty) h
  · rfl

/-- The operands of a text, then those of another one behind a bar. No operand is a number. -/
theorem Operands.append (h : Operands text es) (h' : Operands r es') (hr : skipSpace r = r)
    (he : ∀ e ∈ es, ¬ OfNumber e) : Operands (text ++ ([' ', '|', ' '] ++ r)) (es ++ es') := by
  have hbar : skipSpace ([' ', '|', ' '] ++ r) = '|' :: ' ' :: r := rfl
  have hspace : skipSpace (' ' :: r) = r := hr
  induction h with
  | @last text e hread =>
    have hn : Number.numeral? (skipSpace text) = none := by
      by_contra hn
      exact he e (by simp) (ofNumber_of_path hread hn)
    obtain ⟨u, hu, hlonger⟩ := path_append_end hn hread branchEnd_nil
      (branchEnd_of_bar (show skipSpace ([] ++ ([' ', '|', ' '] ++ r)) = '|' :: ' ' :: r from hbar))
    exact .more hlonger (hu.trans hbar) (hspace.symm ▸ h')
  | @more text u v e es hread hu hs ih =>
    obtain ⟨hfirst, hrest⟩ := List.forall_mem_cons.mp he
    have hn : Number.numeral? (skipSpace text) = none := by
      by_contra hn
      exact hfirst (ofNumber_of_path hread hn)
    have hlong : skipSpace (u ++ ([' ', '|', ' '] ++ r)) = '|' :: (v ++ ([' ', '|', ' '] ++ r)) := by
      rw [skipSpace_append_of_ne_nil (by simp [hu]), hu]
      rfl
    obtain ⟨w, hw, hlonger⟩ := path_append_end hn hread (branchEnd_of_bar hu)
      (branchEnd_of_bar hlong)
    refine .more hlonger (hw.trans hlong) ?_
    rw [skipSpace_append_of_ne_nil (ne_nil_of_operands hs)]
    exact ih hrest

/-- A query that begins like a path and selects nodes is read operand by operand. -/
theorem operands_of_select {site : Site} {query : String} (hq : Begins query.toList)
    (h : select s site query = .ok sites) : ∃ first more,
      Operands (trimEnd query.toList) (first :: more) ∧
      unbound? s.bindings (unionOf first more) = none ∧
      evaluate s { site } (unionOf first more) = .ok (.nodes sites) := by
  obtain ⟨e, hparse, hbound, hvalue⟩ := select_eq_ok.mp h
  rw [parse_eq_ok, trim, trimStart_of_head hq.head_not_blank] at hparse
  obtain ⟨first, more, hoperands, rfl⟩ :=
    unionExpr_iff.mp (unionExpr_of_expression (isUnion_of_nodes hvalue) hparse)
  exact ⟨first, more, hoperands, hbound, hvalue⟩

theorem select_of_operands {site : Site} {query : String} (hq : Begins query.toList)
    (h : Operands (trimEnd query.toList) (first :: more))
    (hb : unbound? s.bindings (unionOf first more) = none)
    (hv : evaluate s { site } (unionOf first more) = .ok (.nodes sites)) :
    select s site query = .ok sites := by
  refine select_eq_ok.mpr ⟨unionOf first more, ?_, hb, hv⟩
  rw [parse_eq_ok, trim, trimStart_of_head hq.head_not_blank]
  refine expression_of_unionExpr ?_ (unionExpr_iff.mpr ⟨first, more, h, rfl⟩)
  rw [skipSpace_of_begins (begins_trimEnd hq)]
  rcases begins_trimEnd hq with hhead | hhead <;> rw [hhead] <;> decide

/-- A query made of two others with a bar between them selects what either of them selects. -/
theorem select_append {site : Site} {left right query : String} {lefts rights : List Site}
    (hl : Begins left.toList) (hr : Begins right.toList)
    (hend : ∀ x ∈ left.toList.getLast?, isBlank x = false)
    (hq : query.toList = left.toList ++ ([' ', '|', ' '] ++ right.toList))
    (hlefts : select s site left = .ok lefts) (hrights : select s site right = .ok rights) :
    ∃ sites, select s site query = .ok sites ∧
      ∀ found, found ∈ sites ↔ found ∈ lefts ∨ found ∈ rights := by
  obtain ⟨first, more, hoperands, hbound, hvalue⟩ := operands_of_select hl hlefts
  obtain ⟨first', more', hoperands', hbound', hvalue'⟩ := operands_of_select hr hrights
  rw [trimEnd_of_last hend] at hoperands
  have hall : ∀ e ∈ (first :: more) ++ (first' :: more'),
      ∃ found, evaluate s { site } e = .ok (.nodes found) := fun e he =>
    (List.mem_append.mp he).elim (nodes_of_unionOf hvalue e) (nodes_of_unionOf hvalue' e)
  obtain ⟨sites, hsites, hmem⟩ :
      ∃ sites, evaluate s { site } (unionOf first (more ++ first' :: more')) = .ok (.nodes sites) ∧
        ∀ found, found ∈ sites ↔
          ∃ e ∈ first :: (more ++ first' :: more'), Finds s { site } e found :=
    exists_nodes_unionOf hall
  refine ⟨sites, select_of_operands (hq ▸ begins_append hl _) ?_ ?_ hsites, fun found => ?_⟩
  · have hnumber : ∀ e ∈ first :: more, ¬ OfNumber e := fun e he hof => by
      obtain ⟨found, hfound⟩ := nodes_of_unionOf hvalue e he
      exact hof.evaluate_ne hfound
    rw [hq, ← List.append_assoc, trimEnd_append _ (begins_trimEnd hr).ne_nil, List.append_assoc]
    exact hoperands.append hoperands' (skipSpace_of_begins (begins_trimEnd hr)) hnumber
  · unfold unbound? at hbound hbound' ⊢
    rw [qualifiers_unionOf] at hbound hbound' ⊢
    rw [← List.cons_append, List.flatMap_append, List.find?_append, hbound, hbound']
    rfl
  · rw [hmem, mem_unionOf hvalue, mem_unionOf hvalue', ← List.cons_append]
    simp only [List.mem_append, or_and_right, exists_or]

end MarkupQuery.Query
