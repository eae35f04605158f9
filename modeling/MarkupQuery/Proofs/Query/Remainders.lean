import MarkupQuery.Proofs.Query.Levels

namespace MarkupQuery.Query

open MarkupQuery.Text

section Readers

variable {α β γ δ : Type} {p : Reader α} {q : Reader β} {s r t : List Char}

namespace Reader

/-- What remains of a text when a value has been read. -/
def rest (p : Reader α) (s : List Char) : Option (List Char) := (p s).map Prod.snd

def blind (p : Reader α) : Reader Unit := .map (fun _ => ()) p

def exhaust (p : Reader α) (s : List Char) : List Char := (manyUpTo p s.length s).2

theorem rest_eq_some : rest p s = some r ↔ ∃ a, p s = some (a, r) := by
  simp [rest, Option.map_eq_some_iff]

theorem rest_eq_none : rest p s = none ↔ p s = none := by simp [rest]

theorem rest_map (f : α → β) (p : Reader α) : rest (.map f p) = rest p := by
  funext s
  simp only [rest, Reader.map, Option.map_map]
  rfl

theorem rest_blind (p : Reader α) : rest (blind p) = rest p := rest_map _ p

theorem rest_both (p : Reader α) (q : Reader β) (s : List Char) :
    rest (.both p q) s = (rest p s).bind (rest q) := by
  cases hp : p s with
  | none => simp [rest, Reader.both, hp]
  | some found => rw [rest, both_of_some hp, rest, hp, Option.map_map]; rfl

theorem rest_orElse (p q : Reader α) (s : List Char) :
    rest (.orElse p q) s = (rest p s).or (rest q s) := by
  cases hp : p s <;> simp [rest, Reader.orElse, hp]

theorem rest_spaced (p : Reader α) (s : List Char) :
    rest (.spaced p) s = (rest p (skipSpace s)).map skipSpace := by
  simp only [rest, Reader.spaced, Option.map_map]
  rfl

theorem rest_optional (p : Reader α) (s : List Char) :
    rest (.optional p) s = some ((rest p s).getD s) := by
  cases hp : p s <;> simp [rest, Reader.optional, hp]

theorem rest_many (p : Reader α) (s : List Char) : rest (.many p) s = some (exhaust p s) := rfl

end Reader

open Reader

theorem rest_leftChain (operand : Reader Expr) (operator : Reader BinaryOp) (s : List Char) :
    rest (leftChain operand operator) s =
      (rest operand s).map (exhaust (.both (.spaced operator) operand)) := by
  rw [leftChain, rest_map, rest_both]
  cases rest operand s <;> rfl

theorem exhaust_of_none (h : rest p s = none) : exhaust p s = s := by
  have hmany := congrArg (·.map Prod.snd) (many_of_none (rest_eq_none.mp h))
  exact Option.some.inj hmany

theorem Strict.rest_lt (hp : Strict p) (h : rest p s = some r) : r.length < s.length := by
  obtain ⟨a, ha⟩ := rest_eq_some.mp h
  exact hp s a r ha

theorem Strict.exhaust_of_some (hp : Strict p) (h : rest p s = some r) :
    exhaust p s = exhaust p r := by
  obtain ⟨a, ha⟩ := rest_eq_some.mp h
  have hmany := congrArg (·.map Prod.snd) (hp.many_of_some ha)
  rw [Option.map_map] at hmany
  exact Option.some.inj hmany

/-- Only what a reader leaves counts for how far it goes. -/
theorem Strict.exhaust_congr (hp : Strict p) (hq : Strict q) (h : rest p = rest q) :
    exhaust p = exhaust q := by
  funext s
  induction hn : s.length using Nat.strong_induction_on generalizing s with
  | _ n ih =>
    cases hr : rest p s with
    | none => rw [exhaust_of_none hr, exhaust_of_none (h ▸ hr)]
    | some r =>
      rw [hp.exhaust_of_some hr, hq.exhaust_of_some (h ▸ hr)]
      exact ih _ (hn ▸ hp.rest_lt hr) _ rfl

/-- Where no further value can be read, none can be read. -/
theorem Strict.rest_exhaust (hp : Strict p) (s : List Char) : rest p (exhaust p s) = none :=
  rest_eq_none.mpr <| hp.none_of_many <|
    show Reader.many p s = some ((manyUpTo p s.length s).1, exhaust p s) from rfl

theorem Strict.exhaust_exhaust (hp : Strict p) (s : List Char) :
    exhaust p (exhaust p s) = exhaust p s := exhaust_of_none (hp.rest_exhaust s)

theorem Strict.blind (hp : Strict p) : Strict (blind p) := by
  intro s _ r h
  obtain ⟨a, ha, -⟩ := map_eq_some.mp h
  exact hp s a r ha

theorem Strict.orElse {p q : Reader α} (hp : Strict p) (hq : Strict q) :
    Strict (.orElse p q) := by
  intro s a r h
  unfold Reader.orElse at h
  split at h
  · rename_i found hfound
    exact hp s a r (hfound.trans h)
  · exact hq s a r h

/-- Operations whose operands go on with other operations are the same as operations of both kinds
one after the other. -/
theorem exhaust_interleaved {a : Reader Unit} {o : Reader δ} (ha : Strict a)
    (hop : Strict (.both o p)) (hoq : Strict (.both o q))
    (h : ∀ s, rest p s = (rest q s).map (exhaust a)) (s : List Char) :
    exhaust (.both o p) (exhaust a s) = exhaust (.orElse a (blind (.both o q))) s := by
  have hall := ha.orElse hoq.blind
  induction hn : s.length using Nat.strong_induction_on generalizing s with
  | _ n ih =>
    cases hr : rest a s with
    | some r =>
      have hboth : rest (.orElse a (blind (.both o q))) s = some r := by
        rw [rest_orElse, hr, Option.some_or]
      rw [ha.exhaust_of_some hr, hall.exhaust_of_some hboth]
      exact ih _ (hn ▸ ha.rest_lt hr) _ rfl
    | none =>
      have hboth : rest (.orElse a (blind (.both o q))) s = rest (.both o q) s := by
        rw [rest_orElse, hr, Option.none_or, rest_blind]
      have hoperand : rest (.both o p) s = (rest (.both o q) s).map (exhaust a) := by
        rw [rest_both, rest_both, Option.map_bind]
        exact congrArg _ (funext h)
      rw [exhaust_of_none hr]
      cases hu : rest (.both o q) s with
      | none =>
        rw [hu] at hboth hoperand
        rw [exhaust_of_none hoperand, exhaust_of_none hboth]
      | some u =>
        rw [hu] at hboth hoperand
        rw [hop.exhaust_of_some hoperand, hall.exhaust_of_some hboth]
        exact ih _ (hn ▸ hoq.rest_lt hu) _ rfl

end Readers

open Reader

variable {s r t : List Char} {l n : Nat}

def signed : Reader Unit := blind (.both (.optional (.spaced (.char '-'))) (path expression))

def operand (l : Nat) : Reader Unit := if l < 6 then signed else blind (path expression)

def operations : Nat → Reader Unit
  | 0 => blind (.both (.spaced (operatorAt 6)) (operand 6))
  | n + 1 => .orElse (operations n) (blind (.both (.spaced (operatorAt (5 - n))) (operand (5 - n))))

def afterOperations (s : List Char) : List Char := exhaust (operations 6) s

theorem strict_operation (l : Nat) :
    Strict (.both (.spaced (operatorAt l)) (operand l)) := by
  refine strict_operators (fun bound => ?_) fun _ => steady_operatorAt twins_eq l
  have hpath : Steady (fun _ s s' => s = s') bound 0 1 1 (path expression) (path expression) :=
    steady_path (fun depth => steady_expression twins_eq depth) twins_eq
  unfold operand signed Reader.blind
  split
  · exact .map _ (.both (.optional (twins_eq.spaced (steady_innerChar twins_eq (show isPlain '-' = true from rfl)))) hpath)
  · exact .map _ hpath

theorem strict_operations (n : Nat) : Strict (operations n) := by
  induction n with
  | zero => exact (strict_operation 6).blind
  | succ n ih => exact ih.orElse (strict_operation _).blind

theorem rest_readerAt (hn : n ≤ 6) (s : List Char) :
    rest (readerAt (6 - n)) s = (rest signed s).map (exhaust (operations n)) := by
  induction n generalizing s with
  | zero =>
    have hunion : rest (unionExpr expression) =
        fun s => (rest (path expression) s).map (exhaust (operations 0)) := by
      funext s
      rw [unionExpr, rest_leftChain]
      congr 1
      refine Strict.exhaust_congr strict_barred (strict_operations 0) ?_
      rw [operations, rest_blind]
      funext t
      rw [rest_both, rest_both, show operand 6 = blind (path expression) from rfl, rest_blind]
      rfl
    rw [signed, rest_blind, rest_both]
    change rest (unaryExpr expression) s = _
    rw [unaryExpr, rest_map, rest_both, rest_optional]
    exact congrFun hunion _
  | succ n ih =>
    have hlevel : 6 - n = 5 - n + 1 := by omega
    have hchain : readerAt (5 - n) = leftChain (readerAt (5 - n + 1)) (operatorAt (5 - n)) := by
      obtain rfl | rfl | rfl | rfl | rfl | rfl :
        n = 0 ∨ n = 1 ∨ n = 2 ∨ n = 3 ∨ n = 4 ∨ n = 5 := by omega
      all_goals rfl
    have hoperand : operand (5 - n) = signed := if_pos (by omega)
    have hrest := fun s => ih (Nat.le_of_succ_le hn) s
    rw [hlevel] at hrest
    have hinterleaved := exhaust_interleaved (o := .spaced (operatorAt (5 - n)))
      (strict_operations n) (strict_operationAt (5 - n)) (hoperand ▸ strict_operation (5 - n))
      hrest
    rw [show 6 - (n + 1) = 5 - n by omega, hchain, rest_leftChain, hrest, Option.map_map, operations,
      hoperand]
    exact congrArg (fun f => Option.map f _) (funext hinterleaved)

/-- An expression is read as far as operations go behind its first operand. -/
theorem rest_expression (s : List Char) :
    rest expression s = (rest signed s).map afterOperations := by
  rw [expression_eq]
  exact rest_readerAt (Nat.le_refl 6) s

def operatorLevel : Char → Option Nat
  | 'o' => some 0
  | 'a' => some 1
  | '=' | '!' => some 2
  | '<' | '>' | '&' => some 3
  | '+' | '-' => some 4
  | '*' | 'd' | 'm' => some 5
  | '|' => some 6
  | _ => none

def Opens {α : Type} (l : Nat) (p : Reader α) : Prop :=
  ∀ s a r, p s = some (a, r) → s.head?.bind operatorLevel = some l

section Opens

variable {α β : Type}

theorem Opens.map {p : Reader α} (h : Opens l p) (f : α → β) : Opens l (.map f p) := by
  intro s b r hread
  obtain ⟨a, ha, -⟩ := map_eq_some.mp hread
  exact h s a r ha

theorem Opens.orElse {p q : Reader α} (hp : Opens l p) (hq : Opens l q) :
    Opens l (.orElse p q) := by
  intro s a r hread
  unfold Reader.orElse at hread
  split at hread
  · rename_i found hfound
    exact hp s a r (hfound.trans hread)
  · exact hq s a r hread

theorem opens_char {c : Char} (hc : operatorLevel c = some l) : Opens l (.char c) := by
  intro s _ r hread
  have hs : s.head? = some c := by
    by_contra hs
    simp [char_of_head_ne hs] at hread
  rw [hs]
  exact hc

theorem opens_word {text : String} (ht : text.toList.head?.bind operatorLevel = some l) :
    Opens l (.word text) := by
  intro s _ r hread
  obtain ⟨c, hc, hlevel⟩ := Option.bind_eq_some_iff.mp ht
  have hs : s.head? = some c := by
    by_contra hs
    simp [word_of_head_ne hc hs] at hread
  rw [hs]
  exact hlevel

theorem opens_wholeWord {text : String} (ht : text.toList.head?.bind operatorLevel = some l) :
    Opens l (wholeWord text) := by
  intro s a r hread
  unfold wholeWord at hread
  split at hread
  · rename_i hword
    exact opens_word ht s _ _ hword
  · exact opens_word ht s a r hread

end Opens

theorem opens_operatorAt (hl : l ≤ 6) : Opens l (operatorAt l) := by
  have hname : ∀ {m op text}, text.toList.head?.bind operatorLevel = some m →
      Opens m (operatorName op text) := fun ht => (opens_wholeWord ht).map _
  have hword : ∀ {m op text}, text.toList.head?.bind operatorLevel = some m →
      Opens m (operatorWord op text) := fun ht => (opens_word ht).map _
  have hchar : ∀ {m op c}, operatorLevel c = some m → Opens m (operatorChar op c) := fun hc =>
    (opens_char hc).map _
  match l, hl with
  | 0, _ => exact hname (by decide)
  | 1, _ => exact hname (by decide)
  | 2, _ => exact .orElse (hchar rfl) (hword (by decide))
  | 3, _ =>
    exact .orElse (hword (by decide)) <| .orElse (hword (by decide)) <|
      .orElse (hword (by decide)) <| .orElse (hword (by decide)) <| .orElse (hchar rfl) <|
      .orElse (hword (by decide)) <| .orElse (hchar rfl) (hword (by decide))
  | 4, _ => exact .orElse (hchar rfl) (hchar rfl)
  | 5, _ => exact .orElse (hchar rfl) (.orElse (hname (by decide)) (hname (by decide)))
  | 6, _ => exact hchar rfl

/-- No two levels have operators that begin alike. -/
theorem operatorAt_unique {m : Nat} {op : BinaryOp} (hl : l ≤ 6) (hm : m ≤ 6)
    (h : operatorAt l s = some (op, r)) (hne : m ≠ l) : operatorAt m s = none := by
  by_contra hother
  obtain ⟨⟨op', r'⟩, hother⟩ := Option.ne_none_iff_exists'.mp hother
  have hlevel := opens_operatorAt hm s op' r' hother
  rw [opens_operatorAt hl s op r h] at hlevel
  exact hne (Option.some.inj hlevel).symm

theorem rest_operation_of_none (h : operatorAt l (skipSpace s) = none) :
    rest (blind (.both (.spaced (operatorAt l)) (operand l))) s = none := by
  rw [rest_blind, rest_both, rest_spaced, rest_eq_none.mpr h]
  rfl

theorem rest_operation {op : BinaryOp} (h : operatorAt l (skipSpace s) = some (op, t)) :
    rest (blind (.both (.spaced (operatorAt l)) (operand l))) s =
      rest (operand l) (skipSpace t) := by
  rw [rest_blind, rest_both, rest_spaced, rest_eq_some.mpr ⟨op, h⟩]
  rfl

theorem rest_operations_of_none (hn : n ≤ 6)
    (h : ∀ l, 6 - n ≤ l → l ≤ 6 → operatorAt l (skipSpace s) = none) :
    rest (operations n) s = none := by
  induction n with
  | zero => exact rest_operation_of_none (h 6 (Nat.le_refl 6) (Nat.le_refl 6))
  | succ n ih =>
    rw [operations, rest_orElse, ih (by omega) fun l hl => h l (by omega),
      rest_operation_of_none (h (5 - n) (by omega) (by omega))]
    rfl

/-- Only operators of one level can follow a text. -/
theorem rest_operations {op : BinaryOp} (hn : n ≤ 6) (hl : 6 - n ≤ l) (hl' : l ≤ 6)
    (h : operatorAt l (skipSpace s) = some (op, t)) :
    rest (operations n) s = rest (operand l) (skipSpace t) := by
  induction n with
  | zero =>
    obtain rfl : l = 6 := by omega
    exact rest_operation h
  | succ n ih =>
    rw [operations, rest_orElse]
    by_cases hlevel : l = 5 - n
    · have hnone : rest (operations n) s = none :=
        rest_operations_of_none (by omega) fun m hm hm' =>
          operatorAt_unique hl' hm' h (by omega)
      rw [hnone, Option.none_or, ← hlevel, rest_operation h]
    · have hother : operatorAt (5 - n) (skipSpace s) = none :=
        operatorAt_unique hl' (by omega) h (Ne.symm hlevel)
      rw [rest_operation_of_none hother, Option.or_none]
      exact ih (by omega) (by omega)

/-- An operation is an operator with an operand behind it. -/
theorem exists_operation (h : rest (operations 6) s = some r) : ∃ l op t, l ≤ 6 ∧
    operatorAt l (skipSpace s) = some (op, t) ∧ rest (operand l) (skipSpace t) = some r := by
  by_contra hnot
  have hnone : rest (operations 6) s = none := by
    refine rest_operations_of_none (Nat.le_refl 6) fun l _ hl => ?_
    by_contra hsome
    obtain ⟨⟨op, t⟩, hsome⟩ := Option.ne_none_iff_exists'.mp hsome
    exact hnot ⟨l, op, t, hl, hsome, rest_operations (Nat.le_refl 6) (by omega) hl hsome ▸ h⟩
  rw [hnone] at h
  cases h

theorem afterOperations_of_some {op : BinaryOp} (hl : l ≤ 6)
    (h : operatorAt l (skipSpace s) = some (op, t))
    (hr : rest (operand l) (skipSpace t) = some r) : afterOperations s = afterOperations r :=
  (strict_operations 6).exhaust_of_some
    (rest_operations (Nat.le_refl 6) (by omega) hl h ▸ hr)

/-- Nothing but an operator goes on behind an operand. -/
theorem afterOperations_of_head (h : (skipSpace s).head?.bind operatorLevel = none) :
    afterOperations s = s := by
  refine exhaust_of_none (rest_operations_of_none (Nat.le_refl 6) fun l _ hl => ?_)
  by_contra hsome
  obtain ⟨⟨op, t⟩, hsome⟩ := Option.ne_none_iff_exists'.mp hsome
  rw [opens_operatorAt hl _ op t hsome] at h
  cases h

theorem rest_operations_skipSpace (s : List Char) :
    rest (operations 6) (skipSpace s) = rest (operations 6) s := by
  cases h : rest (operations 6) s with
  | none =>
    by_contra hsome
    obtain ⟨r, hr⟩ := Option.ne_none_iff_exists'.mp hsome
    obtain ⟨l, op, t, hl, hop, hoperand⟩ := exists_operation hr
    rw [skipSpace_skipSpace] at hop
    rw [rest_operations (Nat.le_refl 6) (by omega) hl hop, hoperand] at h
    cases h
  | some r =>
    obtain ⟨l, op, t, hl, hop, hoperand⟩ := exists_operation h
    rw [← skipSpace_skipSpace] at hop
    rw [rest_operations (Nat.le_refl 6) (by omega) hl hop, hoperand]

/-- Spaces in front of operations do not matter. -/
theorem skipSpace_afterOperations (s : List Char) :
    skipSpace (afterOperations (skipSpace s)) = skipSpace (afterOperations s) := by
  have hskip := rest_operations_skipSpace s
  unfold afterOperations
  cases h : rest (operations 6) s with
  | none => rw [exhaust_of_none h, exhaust_of_none (hskip.trans h), skipSpace_skipSpace]
  | some r =>
    rw [(strict_operations 6).exhaust_of_some h, (strict_operations 6).exhaust_of_some (hskip.trans h)]

end MarkupQuery.Query
