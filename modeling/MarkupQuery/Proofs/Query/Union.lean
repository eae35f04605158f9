import MarkupQuery.Proofs.Query.Repetition
import Mathlib.Data.List.Induction

namespace MarkupQuery.Query

open MarkupQuery.Text

variable {s r : List Char} {e first first' : Expr} {es more more' : List Expr}

def unionOf (first : Expr) (more : List Expr) : Expr := more.foldl (.binary .union) first

/-- A text that is read as the operands of a union to its end. -/
inductive Operands : List Char → List Expr → Prop
  | last {s : List Char} {e : Expr} (h : path expression s = some (e, [])) : Operands s [e]
  | more {s r s' : List Char} {e : Expr} {es : List Expr} (h : path expression s = some (e, r))
    (hr : skipSpace r = '|' :: s') (hs : Operands (skipSpace s') es) : Operands s (e :: es)

def barred : Reader (BinaryOp × Expr) :=
  .both (.spaced (operatorChar .union '|')) (path expression)

theorem strict_barred : Strict barred := by
  have hsteady : ∀ bound, Steady (fun _ s s' => s = s') bound 1 1 1 barred barred := fun _ =>
    .mono (.both (twins_eq.spaced (steady_operatorChar twins_eq .union rfl))
      (.rest (steady_path (fun depth => steady_expression twins_eq depth) twins_eq) 1))
      (by omega) (Nat.le_refl _)
  exact strict_of_steady hsteady

theorem barred_iff {op : BinaryOp} {r' : List Char} : barred r = some ((op, e), r') ↔
    op = .union ∧ ∃ s, skipSpace r = '|' :: s ∧ path expression (skipSpace s) = some (e, r') := by
  simp only [barred, Reader.both, Reader.spaced, operatorChar, Reader.map]
  cases hr : skipSpace r with
  | nil => simp [Reader.char]
  | cons c s =>
    by_cases hc : c = '|'
    · subst hc
      cases hp : path expression (skipSpace s) with
      | none => simp [Reader.char, hp]
      | some found =>
        obtain ⟨e', t⟩ := found
        simp [Reader.char, hp, and_assoc, eq_comm]
    · simp [Reader.char, hc]

theorem many_barred_iff : Reader.many barred r = some (es.map fun e => (.union, e), []) ↔
    (r = [] ∧ es = []) ∨ ∃ s, skipSpace r = '|' :: s ∧ Operands (skipSpace s) es := by
  induction es generalizing r with
  | nil =>
    have hoperands : ∀ s, ¬ Operands s [] := fun s h => by cases h
    rw [strict_barred.many_iff]
    simp only [List.map_nil, hoperands, and_false, exists_false, or_false, and_true]
    constructor
    · rintro (⟨-, -, rfl⟩ | ⟨_, _, _, -, -, hcons⟩)
      · rfl
      · simp at hcons
    · rintro rfl
      exact .inl ⟨rfl, trivial, rfl⟩
  | cons e es ih =>
    rw [strict_barred.many_iff]
    simp only [List.map_cons, reduceCtorEq, false_and, and_false, false_or]
    constructor
    · rintro ⟨_, t, rest, hfirst, hrest, hcons⟩
      obtain ⟨rfl, rfl⟩ := List.cons.inj hcons
      obtain ⟨-, s, hs, hpath⟩ := barred_iff.mp hfirst
      refine ⟨s, hs, ?_⟩
      rcases ih.mp hrest with ⟨rfl, rfl⟩ | ⟨s', hs', hoperands⟩
      · exact .last hpath
      · exact .more hpath hs' hoperands
    · rintro ⟨s, hs, hoperands⟩
      cases hoperands with
      | last hpath =>
        exact ⟨_, [], [], barred_iff.mpr ⟨rfl, s, hs, hpath⟩, ih.mpr (.inl ⟨rfl, rfl⟩), rfl⟩
      | @more _ t s' _ _ hpath hr hrest =>
        exact ⟨_, t, _, barred_iff.mpr ⟨rfl, s, hs, hpath⟩, ih.mpr (.inr ⟨s', hr, hrest⟩), rfl⟩

theorem foldl_union (first : Expr) (es : List Expr) :
    (es.map fun e => ((.union : BinaryOp), e)).foldl
      (fun left (op, right) => .binary op left right) first = unionOf first es := by
  rw [List.foldl_map]
  rfl

/-- What can be read in a row can be read once. -/
theorem Strict.exists_of_mem {α : Type} {p : Reader α} (hp : Strict p) {as : List α}
    (h : Reader.many p s = some (as, r)) : ∀ a ∈ as, ∃ t u, p t = some (a, u) := by
  induction as generalizing s with
  | nil => simp
  | cons a as ih =>
    rcases hp.many_iff.mp h with ⟨-, hnil, -⟩ | ⟨_, t, _, hfirst, hrest, hcons⟩
    · simp at hnil
    · obtain ⟨rfl, rfl⟩ := List.cons.inj hcons
      intro x hx
      rcases List.mem_cons.mp hx with rfl | hx
      · exact ⟨s, t, hfirst⟩
      · exact ih hrest x hx

/-- A text is a union if and only if it is read operand by operand. -/
theorem unionExpr_iff : unionExpr expression s = some (e, []) ↔
    ∃ first more, Operands s (first :: more) ∧ e = unionOf first more := by
  rw [unionExpr, leftChain, map_eq_some]
  constructor
  · rintro ⟨⟨first, items⟩, hboth, rfl⟩
    obtain ⟨r, hfirst, hmany⟩ := both_eq_some.mp hboth
    change Reader.many barred r = some (items, []) at hmany
    obtain ⟨es, rfl⟩ : ∃ es : List Expr, items = es.map fun e => ((.union : BinaryOp), e) := by
      refine ⟨items.map Prod.snd, ?_⟩
      rw [List.map_map]
      refine (List.map_id items).symm.trans (List.map_congr_left fun item hitem => ?_)
      obtain ⟨t, u, hitem⟩ := strict_barred.exists_of_mem hmany item hitem
      obtain ⟨hop, -⟩ := barred_iff.mp (show barred t = some ((item.1, item.2), u) from hitem)
      exact Prod.ext hop rfl
    refine ⟨first, es, ?_, foldl_union first es⟩
    rcases many_barred_iff.mp hmany with ⟨rfl, rfl⟩ | ⟨s', hs', hoperands⟩
    · exact .last hfirst
    · exact .more hfirst hs' hoperands
  · rintro ⟨first, more, hoperands, rfl⟩
    obtain ⟨r, hfirst, hmany⟩ : ∃ r, path expression s = some (first, r) ∧
        Reader.many barred r = some (more.map fun e => (.union, e), []) := by
      cases hoperands with
      | last hpath => exact ⟨[], hpath, many_barred_iff.mpr (.inl ⟨rfl, rfl⟩)⟩
      | @more _ r s' _ _ hpath hr hrest =>
        exact ⟨r, hpath, many_barred_iff.mpr (.inr ⟨s', hr, hrest⟩)⟩
    exact ⟨(first, more.map fun e => (.union, e)), both_eq_some.mpr ⟨r, hfirst, hmany⟩,
      foldl_union first more⟩

def Gives (operator : Reader BinaryOp) (P : BinaryOp → Prop) : Prop :=
  ∀ s op r, operator s = some (op, r) → P op

theorem Gives.orElse {p q : Reader BinaryOp} {P : BinaryOp → Prop} (hp : Gives p P)
    (hq : Gives q P) : Gives (.orElse p q) P := by
  intro s op r h
  unfold Reader.orElse at h
  split at h
  · rename_i found hfound
    exact hp s op r (hfound.trans h)
  · exact hq s op r h

theorem gives_map {α : Type} {op : BinaryOp} {P : BinaryOp → Prop} (p : Reader α) (h : P op) :
    Gives (.map (fun _ => op) p) P := by
  intro s op' r hs
  obtain ⟨found, -, he⟩ := Option.map_eq_some_iff.mp hs
  obtain ⟨rfl, -⟩ := Prod.mk.inj he
  exact h

/-- The outermost operator of an expression, if it has one, is a union. -/
def IsUnion : Expr → Prop
  | .binary op _ _ => op = .union
  | .negate _ => False
  | _ => True

instance : DecidablePred IsUnion
  | .binary op _ _ => inferInstanceAs (Decidable (op = .union))
  | .negate _ => inferInstanceAs (Decidable False)
  | .literal _ | .number _ | .relative _ | .absolute _ | .continued _ _ | .call _ _
  | .filter _ _ => inferInstanceAs (Decidable True)

theorem isUnion_foldl {first : Expr} {items : List (BinaryOp × Expr)}
    (h : IsUnion (items.foldl (fun left (op, right) => .binary op left right) first))
    (hi : ∀ item ∈ items, item.1 ≠ .union) : items = [] := by
  rcases List.eq_nil_or_concat items with rfl | ⟨before, last, rfl⟩
  · rfl
  · rw [List.concat_eq_append, List.foldl_append] at h
    exact absurd h (hi last (by simp))

/-- Operators with operands behind them can be read in a row. -/
theorem strict_operators {α β : Type} {operand : Reader α} {operator : Reader β}
    (hp : ∀ bound, Steady (fun _ s s' => s = s') bound 0 1 1 operand operand)
    (ho : ∀ bound, Steady (fun _ s s' => s = s') bound 1 1 1 operator operator) :
    Strict (.both (.spaced operator) operand) :=
  strict_of_steady fun bound => .both (twins_eq.spaced (ho bound)) (.rest (hp bound) 1)

/-- A chain of operators other than the union is not read as a union unless it is one operand. -/
theorem operand_of_leftChain {operand : Reader Expr} {operator : Reader BinaryOp}
    (hp : ∀ bound, Steady (fun _ s s' => s = s') bound 0 1 1 operand operand)
    (ho : ∀ bound, Steady (fun _ s s' => s = s') bound 1 1 1 operator operator)
    (hg : Gives operator (· ≠ .union)) (he : IsUnion e)
    (h : leftChain operand operator s = some (e, r)) : operand s = some (e, r) := by
  have hs := strict_operators hp ho
  obtain ⟨⟨first, items⟩, hboth, rfl⟩ := map_eq_some.mp h
  obtain ⟨t, hfirst, hmany⟩ := both_eq_some.mp hboth
  have hitems : ∀ item ∈ items, item.1 ≠ .union := by
    intro item hitem
    obtain ⟨v, w, hread⟩ := hs.exists_of_mem hmany item hitem
    obtain ⟨x, hop, -⟩ := both_eq_some.mp hread
    obtain ⟨y, hop, -⟩ := spaced_eq_some.mp hop
    exact hg _ _ _ hop
  obtain rfl := isUnion_foldl he hitems
  rcases hs.many_iff.mp hmany with ⟨-, -, rfl⟩ | ⟨_, _, _, -, -, hcons⟩
  · exact hfirst
  · simp at hcons

/-- A text that is read as a union is one at the level of unions. -/
theorem unionExpr_of_expression (he : IsUnion e) (h : expression s = some (e, r)) :
    unionExpr expression s = some (e, r) := by
  have hn : ∀ bound depth, Steady (fun _ s s' => s = s') (bound - 1) 0 (depth + 1) (depth + 1)
      expression expression := fun _ depth => steady_expression twins_eq depth
  have hname : ∀ op text, op ≠ .union → Gives (operatorName op text) (· ≠ .union) :=
    fun op text hop => gives_map _ hop
  have hword : ∀ op text, op ≠ .union → Gives (operatorWord op text) (· ≠ .union) :=
    fun op text hop => gives_map _ hop
  have hchar : ∀ op c, op ≠ .union → Gives (operatorChar op c) (· ≠ .union) :=
    fun op c hop => gives_map _ hop
  -- down the levels, each of which would have left an operator of its own on top
  rw [expression_eq] at h
  have hand : andExpr expression s = some (e, r) :=
    operand_of_leftChain (fun b => steady_andExpr (hn b) twins_eq)
      (fun _ => steady_operatorName twins_eq _ (by decide) (by decide)) (hname _ _ (by decide)) he h
  have hequality : equalityExpr expression s = some (e, r) :=
    operand_of_leftChain (fun b => steady_equalityExpr (hn b) twins_eq)
      (fun _ => steady_operatorName twins_eq _ (by decide) (by decide)) (hname _ _ (by decide)) he
      hand
  have hrelational : relationalExpr expression s = some (e, r) :=
    operand_of_leftChain (fun b => steady_relationalExpr (hn b) twins_eq)
      (fun _ => steady_equalityOp twins_eq)
      (.orElse (hchar _ _ (by decide)) (hword _ _ (by decide))) he hequality
  have hadditive : additiveExpr expression s = some (e, r) :=
    operand_of_leftChain (fun b => steady_additiveExpr (hn b) twins_eq)
      (fun _ => steady_relationalOp twins_eq)
      (.orElse (hword _ _ (by decide)) <| .orElse (hword _ _ (by decide)) <|
        .orElse (hword _ _ (by decide)) <| .orElse (hword _ _ (by decide)) <|
        .orElse (hchar _ _ (by decide)) <| .orElse (hword _ _ (by decide)) <|
        .orElse (hchar _ _ (by decide)) (hword _ _ (by decide))) he hrelational
  have hmultiplicative : multiplicativeExpr expression s = some (e, r) :=
    operand_of_leftChain (fun b => steady_multiplicativeExpr (hn b) twins_eq)
      (fun _ => steady_additiveOp twins_eq)
      (.orElse (hchar _ _ (by decide)) (hchar _ _ (by decide))) he hadditive
  have hunary : unaryExpr expression s = some (e, r) :=
    operand_of_leftChain (fun b => steady_unaryExpr (hn b) twins_eq)
      (fun _ => steady_multiplicativeOp twins_eq)
      (.orElse (hchar _ _ (by decide)) <|
        .orElse (hname _ _ (by decide)) (hname _ _ (by decide))) he hmultiplicative
  obtain ⟨⟨sign, operand⟩, hboth, rfl⟩ := map_eq_some.mp hunary
  obtain ⟨t, hsign, hunion⟩ := both_eq_some.mp hboth
  cases sign with
  -- a sign would be the outermost operator
  | some minus => exact he.elim
  | none =>
    unfold Reader.optional at hsign
    split at hsign
    · simp at hsign
    · obtain ⟨-, rfl⟩ := Prod.mk.inj (Option.some.inj hsign)
      exact hunion

/-- An operand that no operator follows is the whole chain. -/
theorem leftChain_of_none {operand : Reader Expr} {operator : Reader BinaryOp}
    (h : operand s = some (e, r)) (ho : operator (skipSpace r) = none) :
    leftChain operand operator s = some (e, r) := by
  have hmany : Reader.many (.both (.spaced operator) operand) r = some ([], r) :=
    many_of_none (by simp [Reader.both, Reader.spaced, ho])
  simp [leftChain, Reader.map, Reader.both, h, hmany]

theorem optional_sign_of_head_ne (hs : (skipSpace s).head? ≠ some '-') :
    Reader.optional (.spaced (.char '-')) s = some (none, s) := by
  simp [Reader.optional, spaced_char_of_head_ne hs]

theorem unaryExpr_of_unionExpr (hs : (skipSpace s).head? ≠ some '-')
    (h : unionExpr expression s = some (e, r)) : unaryExpr expression s = some (e, r) :=
  map_eq_some.mpr ⟨(none, e), both_eq_some.mpr ⟨s, optional_sign_of_head_ne hs, h⟩, rfl⟩

/-- A text that is a union to its end and has no sign in front is an expression. -/
theorem expression_of_unionExpr (hs : (skipSpace s).head? ≠ some '-')
    (h : unionExpr expression s = some (e, [])) : expression s = some (e, []) := by
  rw [expression_eq]
  exact leftChain_of_none (leftChain_of_none (leftChain_of_none (leftChain_of_none
    (leftChain_of_none (leftChain_of_none (unaryExpr_of_unionExpr hs h) rfl) rfl) rfl) rfl) rfl) rfl

theorem unionOf_concat (first last : Expr) (more : List Expr) :
    unionOf first (more ++ [last]) = .binary .union (unionOf first more) last := by
  simp [unionOf]

/-- The operands of a union that does not begin with another union are determined by it. -/
theorem unionOf_inj (hf : first.isBinary = false) (hf' : first'.isBinary = false)
    (h : unionOf first more = unionOf first' more') : first = first' ∧ more = more' := by
  induction more using List.reverseRecOn generalizing more' with
  | nil =>
    rcases List.eq_nil_or_concat more' with rfl | ⟨before, last, rfl⟩
    · exact ⟨h, rfl⟩
    · rw [List.concat_eq_append, unionOf_concat] at h
      have hfirst : first = .binary .union (unionOf first' before) last := h
      rw [hfirst] at hf
      cases hf
  | append_singleton before last ih =>
    rcases List.eq_nil_or_concat more' with rfl | ⟨before', last', rfl⟩
    · rw [unionOf_concat] at h
      have hfirst : first' = .binary .union (unionOf first before) last := h.symm
      rw [hfirst] at hf'
      cases hf'
    · rw [List.concat_eq_append, unionOf_concat, unionOf_concat] at h
      obtain ⟨-, hbefore, rfl⟩ := Expr.binary.inj h
      obtain ⟨rfl, rfl⟩ := ih hbefore
      exact ⟨rfl, List.concat_eq_append.symm⟩

theorem isUnion_unionOf (hf : IsUnion first) (more : List Expr) : IsUnion (unionOf first more) := by
  rcases List.eq_nil_or_concat more with rfl | ⟨before, last, rfl⟩
  · exact hf
  · rw [List.concat_eq_append, unionOf_concat]
    rfl

theorem parse_eq_ok {q : String} {e : Expr} :
    parse q = .ok e ↔ expression (trim q.toList) = some (e, []) := by
  unfold parse
  split
  · rename_i found hread
    simp [hread]
  · rename_i found rest hrest hread
    constructor
    · rintro ⟨⟩
    · intro h
      rw [hread] at h
      obtain ⟨-, rfl⟩ := Prod.mk.inj (Option.some.inj h)
      exact absurd rfl hrest
  · rename_i hread
    simp [hread]

end MarkupQuery.Query
