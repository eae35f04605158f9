import MarkupQuery.Proofs.Query.Printer

namespace MarkupQuery.Query

open MarkupQuery.Text

variable {l m : Nat} {op : BinaryOp} {s r rest text left right : List Char} {e e' last last' : Expr}

/-- The reader of a level, which the texts of this level and of all higher ones are for. -/
def readerAt : Nat → Reader Expr
  | 0 => orExpr expression
  | 1 => andExpr expression
  | 2 => equalityExpr expression
  | 3 => relationalExpr expression
  | 4 => additiveExpr expression
  | 5 => multiplicativeExpr expression
  | 6 => unaryExpr expression
  | 7 => unionExpr expression
  | 8 => path expression
  | 9 => filtered expression
  | _ => primary expression

def operatorAt : Nat → Reader BinaryOp
  | 0 => operatorName .or "or"
  | 1 => operatorName .and "and"
  | 2 => equalityOp
  | 3 => relationalOp
  | 4 => additiveOp
  | 5 => multiplicativeOp
  | _ => operatorChar .union '|'

theorem readerAt_level (op : BinaryOp) :
    readerAt op.level = leftChain (readerAt (op.level + 1)) (operatorAt op.level) := by
  cases op <;> rfl

/-- What follows a text at a level, such that the text ends there: nothing, the end of an argument or
of brackets, or an operator of a lower level. A slash would continue a path, and a bracket a
filter. -/
inductive Ends (l : Nat) : List Char → Prop
  | nil : Ends l []
  | close {c : Char} (h : Closes c) (r : List Char) : Ends l (c :: r)
  | operator (op : BinaryOp) (h : op.level < l) (r : List Char) :
    Ends l (' ' :: (op.word.toList ++ ' ' :: r))
  | slash (h : 9 ≤ l) (r : List Char) : Ends l ('/' :: r)
  | bracket (h : 10 ≤ l) (r : List Char) : Ends l ('[' :: r)

theorem Ends.mono (h : Ends l rest) (hl : l ≤ m) : Ends m rest := by
  cases h with
  | nil => exact .nil
  | close h r => exact .close h r
  | operator op h r => exact .operator op (by omega) r
  | slash h r => exact .slash (by omega) r
  | bracket h r => exact .bracket (by omega) r

theorem skipSpace_operator (op : BinaryOp) (r : List Char) :
    skipSpace (' ' :: (op.word.toList ++ ' ' :: r)) = op.word.toList ++ ' ' :: r := by
  cases op <;> rfl

theorem operatorAt_word (op : BinaryOp) (r : List Char) :
    operatorAt op.level (op.word.toList ++ ' ' :: r) = some (op, ' ' :: r) := by
  cases op <;> rfl

theorem operatorAt_of_lower (h : op.level < l) (hl : l ≤ 7) (r : List Char) :
    operatorAt l (op.word.toList ++ ' ' :: r) = none := by
  cases op <;> (match l with
    | 0 | 1 | 2 | 3 | 4 | 5 | 6 | 7 => first | exact absurd h (by decide) | rfl)

theorem operatorAt_of_close {c : Char} (h : Closes c) (hl : l ≤ 7) (r : List Char) :
    operatorAt l (c :: r) = none := by
  match l with
  | 0 | 1 | 2 | 3 | 4 | 5 | 6 | 7 => rcases h with rfl | rfl | rfl <;> rfl

/-- Operators do not go on where a text of their level ends. -/
theorem operatorAt_of_ends (h : Ends l rest) (hl : l ≤ 7) :
    operatorAt l (skipSpace rest) = none := by
  cases h with
  | nil =>
    match l with
    | 0 | 1 | 2 | 3 | 4 | 5 | 6 | 7 => rfl
  | close h r => rw [h.skipSpace, operatorAt_of_close h hl]
  | operator op h r => rw [skipSpace_operator, operatorAt_of_lower h hl]
  | slash h r => omega
  | bracket h r => omega

/-- What comes there behind blanks closes something, or begins an operator, a step or a predicate. -/
theorem Ends.head_skipSpace (h : Ends l rest) {c : Char} (hc : (skipSpace rest).head? = some c) :
    Closes c ∨ (∃ op : BinaryOp, op.word.toList.head? = some c) ∨ (9 ≤ l ∧ c = '/') ∨
      (10 ≤ l ∧ c = '[') := by
  cases h with
  | nil => simp [skipSpace] at hc
  | close h r =>
    rw [h.skipSpace] at hc
    exact .inl (Option.some.inj hc ▸ h)
  | operator op h r =>
    rw [skipSpace_operator] at hc
    exact .inr (.inl ⟨op, by cases op <;> exact hc⟩)
  | slash h r => exact .inr (.inr (.inl ⟨h, (Option.some.inj hc).symm⟩))
  | bracket h r => exact .inr (.inr (.inr ⟨h, (Option.some.inj hc).symm⟩))

theorem head_ne_slash (h : Ends l rest) (hl : l ≤ 8) : (skipSpace rest).head? ≠ some '/' := by
  intro hc
  rcases h.head_skipSpace hc with hclose | ⟨op, hop⟩ | ⟨hslash, -⟩ | ⟨-, hbracket⟩
  · exact absurd hclose (by unfold Closes; decide)
  · cases op <;> simp [BinaryOp.word] at hop
  · omega
  · cases hbracket

theorem slashStep_of_ends (h : Ends l rest) (hl : l ≤ 8) {t : List Char}
    (ht : t = rest ∨ t = skipSpace rest) : slashStep expression t = none := by
  refine slashStep_of_no_slash (head_ne_of_skipSpace ?_)
  rw [skipSpace_eq_of_tail ht]
  exact head_ne_slash h hl

theorem head_ne_bracket (h : Ends l rest) (hl : l ≤ 9) : (skipSpace rest).head? ≠ some '[' := by
  intro hc
  rcases h.head_skipSpace hc with hclose | ⟨op, hop⟩ | ⟨-, hslash⟩ | ⟨hbracket, -⟩
  · exact absurd hclose (by unfold Closes; decide)
  · cases op <;> simp [BinaryOp.word] at hop
  · cases hslash
  · omega

/-- The shape of a text at a level: it begins and ends with no blank, and only a text up to the level
of the minus sign begins with one. -/
structure Stands (l : Nat) (text : List Char) : Prop where
  nonempty : text ≠ []
  noBlank : ∀ x ∈ text.head?, isBlank x = false
  noSign : 7 ≤ l → text.head? ≠ some '-'
  trimmed : ∀ x ∈ text.getLast?, isBlank x = false

theorem Stands.mono (h : Stands m text) (hl : l ≤ m) : Stands l text :=
  { h with noSign := fun hsign => h.noSign (by omega) }

theorem Stands.append (h : Stands l left) (hright : ∀ x ∈ right.getLast?, isBlank x = false) :
    Stands l (left ++ right) where
  nonempty := by simp [h.nonempty]
  noBlank := by
    rw [List.head?_append_of_ne_nil _ h.nonempty]
    exact h.noBlank
  noSign hl := by
    rw [List.head?_append_of_ne_nil _ h.nonempty]
    exact h.noSign hl
  trimmed := by
    intro x hx
    rw [List.getLast?_append] at hx
    cases hlast : right.getLast? with
    | none => exact h.trimmed x (by simpa [hlast] using hx)
    | some y => exact hright x (by simpa [hlast] using hx)

theorem Stands.trimmed_append (h : Stands l text) (s : List Char) :
    ∀ x ∈ (s ++ text).getLast?, isBlank x = false := by
  rw [List.getLast?_append_of_ne_nil _ h.nonempty]
  exact h.trimmed

theorem Stands.skipSpace (h : Stands l text) (r : List Char) :
    Text.skipSpace (text ++ r) = text ++ r := by
  refine skipSpace_of_head (fun x hx => ?_) h.nonempty r
  cases hspace : isSpace x with
  | false => rfl
  | true =>
    have hblank := h.noBlank x hx
    simp [isBlank_of_isSpace x hspace] at hblank

/-- A text that is read at a level, wherever texts of this level end. At the end of a query, `last`
is read off it. -/
structure Reads (l : Nat) (text : List Char) (e last : Expr) : Prop extends Stands l text where
  reads : ∀ rest, Ends l rest → ∃ t, (t = rest ∨ t = Text.skipSpace rest) ∧
    readerAt l (text ++ rest) = some (if rest = [] then last else e, t)

section Operators

def operationAt (l : Nat) : Reader (BinaryOp × Expr) :=
  .both (.spaced (operatorAt l)) (readerAt (l + 1))

theorem steady_operatorAt {R : Page.Nesting → List Char → List Char → Prop} {bound depth : Nat}
    (hR : Twins R) (l : Nat) :
    Steady R bound 1 (depth + 1) (depth + 1) (operatorAt l) (operatorAt l) := by
  unfold operatorAt
  split
  · exact steady_operatorName hR _ rfl (by decide)
  · exact steady_operatorName hR _ rfl (by decide)
  · exact steady_equalityOp hR
  · exact steady_relationalOp hR
  · exact steady_additiveOp hR
  · exact steady_multiplicativeOp hR
  · exact steady_operatorChar hR _ rfl

theorem strict_operationAt (l : Nat) : Strict (operationAt l) := by
  have hn : ∀ (bound depth : Nat), Steady (fun _ s s' => s = s') (bound - 1) 0 (depth + 1) (depth + 1)
      expression expression := fun _ depth => steady_expression twins_eq depth
  refine strict_operators (fun bound => ?_) fun _ => steady_operatorAt twins_eq l
  unfold readerAt
  split
  · exact steady_orExpr (hn bound) twins_eq
  · exact steady_andExpr (hn bound) twins_eq
  · exact steady_equalityExpr (hn bound) twins_eq
  · exact steady_relationalExpr (hn bound) twins_eq
  · exact steady_additiveExpr (hn bound) twins_eq
  · exact steady_multiplicativeExpr (hn bound) twins_eq
  · exact steady_unaryExpr (hn bound) twins_eq
  · exact steady_unionExpr (hn bound) twins_eq
  · exact steady_path (hn bound) twins_eq
  · exact steady_filtered (hn bound) twins_eq
  · exact steady_primary (hn bound) twins_eq

def groupLeft (first : Expr) (items : List (BinaryOp × Expr)) : Expr :=
  items.foldl (fun left (op, right) => .binary op left right) first

theorem groupLeft_concat (first : Expr) (items : List (BinaryOp × Expr)) (op : BinaryOp)
    (e : Expr) : groupLeft first (items ++ [(op, e)]) = .binary op (groupLeft first items) e := by
  simp [groupLeft]

/-- A text of operands with operators of a level between them, which make an expression when they
are grouped to the left. More operations may follow it. -/
def Chains (l : Nat) (text : List Char) (e last : Expr) : Prop :=
  ∀ rest, Ends (l + 1) rest → ∃ first items t,
    readerAt (l + 1) (text ++ rest) = some (first, t) ∧
    groupLeft first items = (if rest = [] then last else e) ∧
    ∀ more r, Reader.many (operationAt l) rest = some (more, r) →
      ∃ r', (r' = r ∨ r' = skipSpace r) ∧
        Reader.many (operationAt l) t = some (items ++ more, r')

theorem many_operationAt_skipSpace {more : List (BinaryOp × Expr)} {t : List Char}
    (ht : t = rest ∨ t = skipSpace rest)
    (h : Reader.many (operationAt l) rest = some (more, r)) :
    ∃ r', (r' = r ∨ r' = skipSpace r) ∧ Reader.many (operationAt l) t = some (more, r') := by
  have hskip : operationAt l (skipSpace rest) = operationAt l rest := by
    simp [operationAt, Reader.both, Reader.spaced, skipSpace_skipSpace]
  rcases ht with rfl | rfl
  · exact ⟨r, .inl rfl, h⟩
  · rcases (strict_operationAt l).many_iff.mp h with ⟨hnone, rfl, rfl⟩ |
      ⟨a, u, more, hfirst, hrest, rfl⟩
    · exact ⟨skipSpace r, .inr rfl, many_of_none (by rwa [hskip])⟩
    · refine ⟨r, .inl rfl, ?_⟩
      rw [(strict_operationAt l).many_of_some (by rwa [hskip]), hrest]
      rfl

/-- A single operand is a chain. -/
theorem Reads.chains (h : Reads (l + 1) text e last) : Chains l text e last := by
  intro rest hrest
  obtain ⟨t, ht, hread⟩ := h.reads rest hrest
  exact ⟨_, [], t, hread, rfl, fun more r hmore => many_operationAt_skipSpace ht hmore⟩

/-- One more operation behind a chain. -/
theorem Chains.binary (h : Chains op.level left e last)
    (hright : Reads (op.level + 1) right e' last') :
    Chains op.level (left ++ ' ' :: (op.word.toList ++ ' ' :: right)) (.binary op e e')
      (.binary op e last') := by
  intro rest hrest
  obtain ⟨u, hu, hread⟩ := hright.reads rest hrest
  obtain ⟨first, items, t, hfirst, hgroup, hmany⟩ :=
    h (' ' :: (op.word.toList ++ ' ' :: (right ++ rest))) (.operator op (by omega) _)
  have hspace : skipSpace (' ' :: (right ++ rest)) = right ++ rest := hright.skipSpace rest
  have hoperator : Reader.spaced (operatorAt op.level)
      (' ' :: (op.word.toList ++ ' ' :: (right ++ rest))) = some (op, right ++ rest) := by
    rw [spaced_eq_some, skipSpace_operator]
    exact ⟨_, operatorAt_word op _, hspace⟩
  have hoperation := both_eq_some.mpr ⟨_, hoperator, hread⟩
  -- the left operand does not end the text, so its own value is read and not `last`
  refine ⟨first, items ++ [(op, if rest = [] then last' else e')], t, ?_, ?_, ?_⟩
  · simpa using hfirst
  · rw [groupLeft_concat, hgroup, if_neg (by simp)]
    split <;> rfl
  · intro more r hmore
    obtain ⟨r', hr', htail⟩ := many_operationAt_skipSpace hu hmore
    have hmore' : Reader.many (operationAt op.level)
        (' ' :: (op.word.toList ++ ' ' :: (right ++ rest))) =
          some ((op, if rest = [] then last' else e') :: more, r') := by
      rw [(strict_operationAt op.level).many_of_some hoperation, htail]
      rfl
    obtain ⟨r'', hr'', hall⟩ := hmany _ _ hmore'
    refine ⟨r'', ?_, by simpa using hall⟩
    rcases hr'' with rfl | rfl
    · exact hr'
    · exact .inr (skipSpace_eq_of_tail hr')

theorem BinaryOp.level_le (op : BinaryOp) : op.level ≤ 7 := by
  cases op <;> decide

theorem Chains.reads (h : Chains op.level text e last) (hrest : Ends op.level rest) :
    ∃ t, (t = rest ∨ t = skipSpace rest) ∧
      readerAt op.level (text ++ rest) = some (if rest = [] then last else e, t) := by
  obtain ⟨first, items, t, hfirst, hgroup, hmany⟩ := h rest (hrest.mono (Nat.le_succ _))
  -- no operation of the level follows, so the chain is all that is read
  have hnone : operationAt op.level rest = none := by
    simp [operationAt, Reader.both, Reader.spaced, operatorAt_of_ends hrest op.level_le]
  obtain ⟨r, hr, hitems⟩ := hmany [] rest (many_of_none hnone)
  rw [List.append_nil] at hitems
  refine ⟨r, hr, ?_⟩
  rw [readerAt_level, leftChain, map_eq_some]
  exact ⟨(first, items), both_eq_some.mpr ⟨t, hfirst, hitems⟩, hgroup⟩

theorem Reads.lower_operator (op : BinaryOp) (h : Reads (op.level + 1) text e last) :
    Reads op.level text e last :=
  { h.toStands.mono (Nat.le_succ _) with reads := fun _ => h.chains.reads }

end Operators

section Lower

theorem Reads.lower_sign (h : Reads 7 text e last) : Reads 6 text e last :=
  { h.toStands.mono (by omega) with
    reads := by
      intro rest hrest
      obtain ⟨t, ht, hread⟩ := h.reads rest (hrest.mono (by omega))
      have hhead : (Text.skipSpace (text ++ rest)).head? ≠ some '-' := by
        rw [h.skipSpace, List.head?_append_of_ne_nil _ h.nonempty]
        exact h.noSign (Nat.le_refl _)
      exact ⟨t, ht, unaryExpr_of_unionExpr hhead hread⟩ }

theorem Reads.lower_path (h : Reads 9 text e last) : Reads 8 text e last :=
  { h.toStands.mono (by omega) with
    reads := by
      intro rest hrest
      obtain ⟨t, ht, hread⟩ := h.reads rest (hrest.mono (by omega))
      have hfiltered : filtered expression (text ++ rest) = some (if rest = [] then last else e, t) :=
        hread
      have hstart : Reader.orElse (filtered expression) (locationPath expression) (text ++ rest) =
          some (if rest = [] then last else e, t) := by
        simp [Reader.orElse, hfiltered]
      have hpath : path expression (text ++ rest) = some (if rest = [] then last else e, t) :=
        map_eq_some.mpr ⟨(_, []), both_eq_some.mpr
          ⟨t, hstart, slashSteps_of_none (slashStep_of_ends hrest (Nat.le_refl _) ht)⟩, rfl⟩
      exact ⟨t, ht, hpath⟩ }

theorem Reads.lower_filter (h : Reads 10 text e last) : Reads 9 text e last :=
  { h.toStands.mono (by omega) with
    reads := by
      intro rest hrest
      obtain ⟨t, ht, hread⟩ := h.reads rest (hrest.mono (by omega))
      have hopen : (Text.skipSpace t).head? ≠ some '[' := by
        rw [skipSpace_eq_of_tail ht]
        exact head_ne_bracket hrest (Nat.le_refl _)
      have hfiltered : filtered expression (text ++ rest) = some (if rest = [] then last else e, t) :=
        map_eq_some.mpr ⟨(_, []), both_eq_some.mpr
          ⟨t, hread, many_of_none (predicate_of_head_ne hopen expression)⟩, rfl⟩
      exact ⟨t, ht, hfiltered⟩ }

theorem Reads.lower_one (h : Reads (l + 1) text e last) (hl : l < 10) : Reads l text e last := by
  match l, h with
  | 0, h => exact h.lower_operator .or
  | 1, h => exact h.lower_operator .and
  | 2, h => exact h.lower_operator .equals
  | 3, h => exact h.lower_operator .less
  | 4, h => exact h.lower_operator .plus
  | 5, h => exact h.lower_operator .times
  | 6, h => exact h.lower_sign
  | 7, h => exact h.lower_operator .union
  | 8, h => exact h.lower_path
  | 9, h => exact h.lower_filter

theorem Reads.lower (h : Reads m text e last) (hl : l ≤ m) (hm : m ≤ 10) : Reads l text e last := by
  induction hl with
  | refl => exact h
  | step hl ih => exact ih (h.lower_one (by omega)) (by omega)

end Lower

end MarkupQuery.Query
