import MarkupQuery.Proofs.Query.Heads
import MarkupQuery.Proofs.Query.NameTests
import MarkupQuery.Proofs.Text.Words

namespace MarkupQuery.Query

open MarkupQuery.Text

variable {s r text : List Char} {e left right : Expr} {c : Char}

/-- What ends an argument of a function or the inside of brackets. -/
def Closes (c : Char) : Prop := c = ',' ∨ c = ')' ∨ c = ']'

theorem Closes.skipSpace (hc : Closes c) (r : List Char) : Text.skipSpace (c :: r) = c :: r := by
  rcases hc with rfl | rfl | rfl <;> rfl

def ClosesLeft (c : Char) : Prop := Closes c ∨ c = '='

theorem no_slashStep (hc : ClosesLeft c) (r : List Char) :
    slashStep expression (c :: r) = none := by
  refine slashStep_of_no_slash ?_
  rcases hc with (rfl | rfl | rfl) | rfl <;> simp

theorem no_predicate (hc : ClosesLeft c) (r : List Char) :
    predicate expression (c :: r) = none := by
  refine predicate_of_head_ne ?_ expression
  rcases hc with (rfl | rfl | rfl) | rfl <;> simp [skipSpace, isSpace]

/-- A path that no operator but equality follows is an operand of it. -/
theorem relationalExpr_of_path (hs : (skipSpace s).head? ≠ some '-') (hc : ClosesLeft c)
    (h : path expression s = some (e, c :: r)) :
    relationalExpr expression s = some (e, c :: r) := by
  have hunion : unionExpr expression s = some (e, c :: r) := by
    refine leftChain_of_none h ?_
    rcases hc with (rfl | rfl | rfl) | rfl <;> rfl
  have hmultiplicative : multiplicativeExpr expression s = some (e, c :: r) := by
    refine leftChain_of_none (unaryExpr_of_unionExpr hs hunion) ?_
    rcases hc with (rfl | rfl | rfl) | rfl <;> rfl
  have hadditive : additiveExpr expression s = some (e, c :: r) := by
    refine leftChain_of_none hmultiplicative ?_
    rcases hc with (rfl | rfl | rfl) | rfl <;> rfl
  refine leftChain_of_none hadditive ?_
  rcases hc with (rfl | rfl | rfl) | rfl <;> rfl

theorem expression_of_equalityExpr (hc : Closes c)
    (h : equalityExpr expression s = some (e, c :: r)) : expression s = some (e, c :: r) := by
  have hand : andExpr expression s = some (e, c :: r) := by
    refine leftChain_of_none h ?_
    rcases hc with rfl | rfl | rfl <;> rfl
  rw [expression_eq]
  refine leftChain_of_none hand ?_
  rcases hc with rfl | rfl | rfl <;> rfl

/-- A text that is read as an expression wherever an argument ends behind it. -/
structure Item (text : List Char) (e : Expr) : Prop where
  skipSpace : ∀ r, Text.skipSpace (text ++ r) = text ++ r
  reads : ∀ c r, Closes c → expression (text ++ c :: r) = some (e, c :: r)

/-- A text that is read as a path wherever an argument ends behind it. -/
structure Argument (text : List Char) (e : Expr) : Prop where
  noSpace : ∀ x ∈ text.head?, isSpace x = false
  noSign : text.head? ≠ some '-'
  nonempty : text ≠ []
  reads : ∀ c r, Closes c → path expression (text ++ c :: r) = some (e, c :: r)

theorem skipSpace_of_head {text : List Char} (hs : ∀ x ∈ text.head?, isSpace x = false)
    (hne : text ≠ []) (r : List Char) : skipSpace (text ++ r) = text ++ r := by
  obtain ⟨x, text, rfl⟩ := List.exists_cons_of_ne_nil hne
  simp [skipSpace, hs x rfl]

theorem Argument.skipSpace (h : Argument text e) (r : List Char) :
    Text.skipSpace (text ++ r) = text ++ r := skipSpace_of_head h.noSpace h.nonempty r

theorem Argument.head_ne (h : Argument text e) (r : List Char) :
    (Text.skipSpace (text ++ r)).head? ≠ some '-' := by
  rw [h.skipSpace, List.head?_append_of_ne_nil _ h.nonempty]
  exact h.noSign

theorem Argument.item (h : Argument text e) : Item text e where
  skipSpace := h.skipSpace
  reads c r hc := by
    refine expression_of_equalityExpr hc (leftChain_of_none
      (relationalExpr_of_path (h.head_ne _) (.inl hc) (h.reads c r hc)) ?_)
    rcases hc with rfl | rfl | rfl <;> rfl

theorem path_of_primary (hc : Closes c) (h : primary expression s = some (e, c :: r)) :
    path expression s = some (e, c :: r) := by
  have hmany : Reader.many (predicate expression) (c :: r) = some ([], c :: r) :=
    many_of_none (no_predicate (.inl hc) r)
  have hfiltered : filtered expression s = some (e, c :: r) :=
    map_eq_some.mpr ⟨(e, []), both_eq_some.mpr ⟨_, h, hmany⟩, rfl⟩
  have hstart : Reader.orElse (filtered expression) (locationPath expression) s =
      some (e, c :: r) := by
    simp [Reader.orElse, hfiltered]
  exact map_eq_some.mpr ⟨(e, []), both_eq_some.mpr
    ⟨_, hstart, slashSteps_of_none (no_slashStep (.inl hc) r)⟩, rfl⟩

theorem primary_quoted {q : Char} (hq : q = '\'' ∨ q = '"') (hv : q ∉ s) (r : List Char) :
    primary expression (q :: s ++ [q] ++ r) = some (.literal (String.ofList s), skipSpace r) := by
  have hnumeral : Number.numeral? (q :: (s ++ q :: r)) = none := by
    refine Number.numeral_of_head ?_ ?_ <;> rcases hq with rfl | rfl <;> simp [Char.isDigit]
  have hall : ∀ x ∈ s, (x != q) = true := by
    intro x hx
    simp only [bne_iff_ne]
    rintro rfl
    exact hv hx
  have hread : stringLiteral (q :: (s ++ q :: r)) = some (String.ofList s, r) := by
    simp [stringLiteral, hq, List.dropWhile_append_of_pos hall, List.takeWhile_append_of_pos hall]
  have hskip : skipSpace (q :: (s ++ q :: r)) = q :: (s ++ q :: r) := by
    rcases hq with rfl | rfl <;> rfl
  have htext : q :: s ++ [q] ++ r = q :: (s ++ q :: r) := by simp
  rw [htext]
  simp [primary, Reader.spaced, Reader.orElse, Reader.map, hskip, hnumeral, hread]

/-- A text between quotes that it does not contain. -/
theorem argument_quoted {q : Char} (hq : q = '\'' ∨ q = '"') (hv : q ∉ s) :
    Argument (q :: s ++ [q]) (.literal (String.ofList s)) where
  noSpace := by rcases hq with rfl | rfl <;> simp <;> decide
  noSign := by rcases hq with rfl | rfl <;> simp
  nonempty := by simp
  reads c r hc := path_of_primary hc (by rw [primary_quoted hq hv, hc.skipSpace])

def furtherArgument : Reader Expr :=
  .map Prod.snd (.both (.spaced (.char ',')) expression)

theorem strict_furtherArgument : Strict furtherArgument := by
  have hsteady : ∀ bound, Steady (fun _ s s' => s = s') bound 1 1 1 furtherArgument
      furtherArgument := fun _ =>
    .map _ (.both (twins_eq.spaced (steady_innerChar twins_eq rfl)) (steady_expression twins_eq 0))
  exact strict_of_steady hsteady

theorem furtherArgument_of_comma (h : Item text e) (hc : Closes c) (r : List Char) :
    furtherArgument ([',', ' '] ++ (text ++ c :: r)) = some (e, c :: r) := by
  have hcomma : Reader.spaced (.char ',') ([',', ' '] ++ (text ++ c :: r)) =
      some ((), text ++ c :: r) := by
    rw [spaced_eq_some]
    refine ⟨' ' :: (text ++ c :: r), rfl, ?_⟩
    have hspace : skipSpace (' ' :: (text ++ c :: r)) = skipSpace (text ++ c :: r) := rfl
    rw [hspace, h.skipSpace]
  exact map_eq_some.mpr ⟨((), e), both_eq_some.mpr ⟨_, hcomma, h.reads c r hc⟩, rfl⟩

theorem exists_closes (more : List (List Char)) (r : List Char) : ∃ c t, Closes c ∧
    (more.flatMap fun text => [',', ' '] ++ text) ++ ')' :: r = c :: t := by
  cases more with
  | nil => exact ⟨')', r, .inr (.inl rfl), rfl⟩
  | cons next more => exact ⟨',', _, .inl rfl, rfl⟩

/-- Arguments with commas between them are read up to the parenthesis behind them. -/
theorem furtherArguments {texts : List (List Char)} {es : List Expr}
    (h : List.Forall₂ Item texts es) (r : List Char) :
    Reader.many furtherArgument
      ((texts.flatMap fun text => [',', ' '] ++ text) ++ ')' :: r) = some (es, ')' :: r) := by
  induction h with
  | nil =>
    refine many_of_none ?_
    have hcomma : Reader.spaced (.char ',') (')' :: r) = none := rfl
    simp [furtherArgument, Reader.map, Reader.both, hcomma]
  | @cons text e texts es hfirst _ ih =>
    rw [List.flatMap_cons, List.append_assoc, List.append_assoc]
    obtain ⟨c, t, hc, ht⟩ := exists_closes texts r
    rw [ht] at ih ⊢
    rw [strict_furtherArgument.many_of_some (furtherArgument_of_comma hfirst hc t), ih]
    rfl

def callText (name : String) (texts : List (List Char)) : List Char :=
  name.toList ++ '(' :: joinWith [',', ' '] texts ++ [')']

theorem leftChain_eq_none {operand : Reader Expr} {operator : Reader BinaryOp}
    (h : operand s = none) : leftChain operand operator s = none := by
  simp [leftChain, Reader.map, Reader.both, h]

theorem expression_of_close (r : List Char) : expression (')' :: r) = none := by
  have hstep : step expression (')' :: r) = none := step_of_no_start (by simp; decide) expression
  have hprimary : primary expression (')' :: r) = none :=
    primary_of_no_start rfl (by simp [startsPrimary]; decide) expression
  have hpath : path expression (')' :: r) = none := by
    simp [path, filtered, Reader.map, Reader.both, Reader.orElse, hprimary, locationPath,
      relativePath, hstep]
  have hunary : unaryExpr expression (')' :: r) = none := by
    have hunion : unionExpr expression (')' :: r) = none := leftChain_eq_none hpath
    simp [unaryExpr, Reader.map, Reader.both, hunion,
      optional_sign_of_head_ne (s := ')' :: r) (by simp [skipSpace, isSpace])]
  rw [expression_eq]
  exact leftChain_eq_none (leftChain_eq_none (leftChain_eq_none (leftChain_eq_none
    (leftChain_eq_none (leftChain_eq_none hunary)))))

theorem separated_arguments {texts : List (List Char)} {es : List Expr}
    (h : List.Forall₂ Item texts es) (r : List Char) :
    Reader.separated (.spaced (.char ',')) expression
      (joinWith [',', ' '] texts ++ ')' :: r) = some (es, ')' :: r) := by
  unfold Reader.separated
  cases h with
  | nil => rw [joinWith, List.intercalate_nil, List.nil_append, expression_of_close]
  | @cons first e more es hfirst hmore =>
    have hothers := furtherArguments hmore r
    obtain ⟨c, t, hc, ht⟩ := exists_closes more r
    rw [joinWith_eq_flatMap, List.append_assoc]
    rw [ht] at hothers ⊢
    rw [hfirst.reads c t hc]
    exact map_eq_some.mpr ⟨es, hothers, rfl⟩

theorem isSpace_of_isNameStart (hc : isNameStart c = true) : isSpace c = false := by
  cases hspace : isSpace c with
  | false => rfl
  | true =>
    have hblank := isBlank_of_isNameChar (isNameChar_of_isNameStart hc)
    simp [isBlank_of_isSpace c hspace] at hblank

theorem isNameStart_of_digit : ∀ n < 10, isNameStart (Char.ofNat (48 + n)) = false := by
  decide +kernel

theorem isDigit_of_isNameStart (hc : isNameStart c = true) : c.isDigit = false := by
  cases hdigit : c.isDigit with
  | false => rfl
  | true =>
    simp only [Char.isDigit, Bool.and_eq_true, decide_eq_true_eq] at hdigit
    have hlow : 48 ≤ c.toNat := UInt32.le_iff_toNat_le.mp hdigit.1
    have hhigh : c.toNat ≤ 57 := UInt32.le_iff_toNat_le.mp hdigit.2
    have hnone := isNameStart_of_digit (c.toNat - 48) (by omega)
    rw [Nat.add_sub_cancel' hlow, Char.ofNat_toNat, hc] at hnone
    cases hnone

/-- A function is called with the expressions that its arguments are read as. -/
theorem functionCall_of_items {name : Option String × String} {texts : List (List Char)}
    {es : List Expr} (hname : ∀ s, qualifiedName ((joinName name).toList ++ '(' :: s) =
      some (name, '(' :: s))
    (htype : isTypeName name = false) (h : List.Forall₂ Item texts es) (r : List Char) :
    functionCall expression (callText (joinName name) texts ++ r) =
      some (.call (joinName name) es, r) := by
  have htext : callText (joinName name) texts ++ r =
      (joinName name).toList ++ '(' :: (joinWith [',', ' '] texts ++ ')' :: r) := by
    simp [callText]
  have hopen : Reader.char '(' (skipSpace ('(' :: (joinWith [',', ' '] texts ++ ')' :: r))) =
      some ((), joinWith [',', ' '] texts ++ ')' :: r) := rfl
  rw [htext, functionCall, hname]
  simp only [bind, Option.bind, hopen, htype, separated_arguments h r]
  rfl

theorem qualifiedName_call {name : String} (hname : IsPlain name) (s : List Char) :
    qualifiedName ((joinName (none, name)).toList ++ '(' :: s) = some ((none, name), '(' :: s) :=
  qualifiedName_of_plain (plainName_append hname (by simp; decide)) (by simp)

/-- What begins with a name is neither a number nor quoted. -/
theorem no_literal_of_isNameStart {x : Char} (hx : isNameStart x = true) (s : List Char) :
    Number.numeral? (x :: s) = none ∧ stringLiteral (x :: s) = none := by
  have hne : ∀ y, isNameStart y = false → x ≠ y := by
    rintro y hy rfl
    simp [hx] at hy
  refine ⟨Number.numeral_of_head ?_ ?_, ?_⟩
  · simpa using isDigit_of_isNameStart hx
  · simpa using hne '.' (by decide)
  · simp [stringLiteral, hne '\'' (by decide), hne '"' (by decide)]

/-- What begins with a name is a primary expression if it calls a function. -/
theorem primary_of_functionCall {x : Char} (hx : isNameStart x = true)
    (h : functionCall expression (x :: s) = some (e, r)) :
    primary expression (x :: s) = some (e, skipSpace r) := by
  have hskip : skipSpace (x :: s) = x :: s := by simp [skipSpace, isSpace_of_isNameStart hx]
  obtain ⟨hnumeral, hliteral⟩ := no_literal_of_isNameStart hx s
  simp [primary, Reader.spaced, Reader.orElse, Reader.map, hskip, hnumeral, hliteral, h]

theorem primary_of_no_functionCall {x : Char} (hx : isNameStart x = true)
    (h : functionCall expression (x :: s) = none) : primary expression (x :: s) = none := by
  have hskip : skipSpace (x :: s) = x :: s := by simp [skipSpace, isSpace_of_isNameStart hx]
  have hopen : (skipSpace (x :: s)).head? ≠ some '(' := by
    rw [hskip]
    rintro ⟨⟩
    exact absurd hx (by decide)
  obtain ⟨hnumeral, hliteral⟩ := no_literal_of_isNameStart hx s
  have hparen : parenthesized expression (x :: s) = none := by
    simp [parenthesized, Reader.map, Reader.both, spaced_char_of_head_ne hopen]
  simp [primary, Reader.spaced, Reader.orElse, Reader.map, hskip, hnumeral, hliteral, h, hparen]

theorem argument_call {name : String} {texts : List (List Char)} {es : List Expr}
    (hname : IsPlain name) (htype : isNodeTypeName name = false)
    (h : List.Forall₂ Argument texts es) : Argument (callText name texts) (.call name es) := by
  obtain ⟨x, cs, hx, hstart, -⟩ := hname.eq_cons
  have hcons : ∀ r, ∃ s, callText name texts ++ r = x :: s := fun r =>
    List.head?_eq_some_iff.mp (by simp [callText, hx])
  have hne : ∀ y, isNameStart y = false → x ≠ y := by
    rintro y hy rfl
    simp [hstart] at hy
  obtain ⟨s, hs⟩ := hcons []
  rw [List.append_nil] at hs
  refine ⟨?_, ?_, ?_, fun c r hc => path_of_primary hc ?_⟩
  · simpa [hs] using isSpace_of_isNameStart hstart
  · simpa [hs] using hne '-' (by decide)
  · simp [hs]
  · obtain ⟨s, hs⟩ := hcons (c :: r)
    have hitems : List.Forall₂ Item texts es := h.imp fun _ _ => Argument.item
    have hcall : functionCall expression (callText name texts ++ c :: r) =
        some (.call name es, c :: r) :=
      functionCall_of_items (qualifiedName_call hname) (by simp [isTypeName, htype]) hitems (c :: r)
    rw [hs] at hcall ⊢
    rw [primary_of_functionCall hstart hcall, hc.skipSpace]

section Attribute

variable {test : NodeTest}

def attributePath (test : NodeTest) : Expr := .relative [.mk .attribute test []]

theorem path_attribute (h : TestText text test) (hc : ClosesLeft c) (r : List Char) :
    path expression ('@' :: text ++ c :: r) = some (attributePath test, c :: r) := by
  have hfollows : Follows (c :: r) := by
    refine follows_cons ?_ r
    rcases hc with (rfl | rfl | rfl) | rfl <;> simp
  have hcolon : (c :: r).head? ≠ some ':' := by
    rcases hc with (rfl | rfl | rfl) | rfl <;> simp
  have hstep : step expression ('@' :: text ++ c :: r) =
      some (.mk .attribute test [], c :: r) :=
    map_eq_some.mpr ⟨((.attribute, test), []), both_eq_some.mpr
      ⟨c :: r, h.stepHead_at hfollows hcolon, many_of_none (no_predicate hc r)⟩, rfl⟩
  have hprimary : primary expression ('@' :: text ++ c :: r) = none :=
    primary_of_no_start rfl (by simp [startsPrimary]; decide) expression
  refine path_of_locationPath hprimary ?_ (no_slashStep hc r)
  rw [locationPath_of_no_slash (by simp)]
  exact relativePath_iff.mpr ⟨_, _, [], hstep, many_of_none (no_slashStep hc r), rfl⟩

theorem argument_attribute (h : TestText text test) :
    Argument ('@' :: text) (attributePath test) where
  noSpace := by simp; decide
  noSign := by simp
  nonempty := by simp
  reads c r hc := path_attribute h (.inl hc) r

structure Inner (text : List Char) (e : Expr) : Prop where
  skipSpace : ∀ r, Text.skipSpace (text ++ r) = text ++ r
  reads : ∀ r, expression (text ++ ']' :: r) = some (e, ']' :: r)

theorem Argument.inner (h : Argument text e) : Inner text e where
  skipSpace := h.skipSpace
  reads r := h.item.reads ']' r (.inr (.inr rfl))

/-- An attribute is compared with an argument. -/
theorem inner_equals (h : TestText text test) {value : List Char} (hv : Argument value e) :
    Inner ('@' :: text ++ '=' :: value) (.binary .equals (attributePath test) e) where
  skipSpace _ := rfl
  reads := by
    intro r
    have hclose : Closes ']' := .inr (.inr rfl)
    have hleft : relationalExpr expression ('@' :: text ++ '=' :: (value ++ ']' :: r)) =
        some (attributePath test, '=' :: (value ++ ']' :: r)) :=
      relationalExpr_of_path (by simp [Text.skipSpace, isSpace]) (.inr rfl)
        (path_attribute h (.inr rfl) _)
    have hright : relationalExpr expression (value ++ ']' :: r) = some (e, ']' :: r) :=
      relationalExpr_of_path (hv.head_ne _) (.inl hclose) (hv.reads ']' r hclose)
    have hop : Reader.spaced equalityOp ('=' :: (value ++ ']' :: r)) =
        some (.equals, value ++ ']' :: r) :=
      spaced_eq_some.mpr ⟨value ++ ']' :: r, rfl, hv.skipSpace _⟩
    have hstrict : Strict (.both (.spaced equalityOp) (relationalExpr expression)) :=
      strict_operators (fun _ => steady_relationalExpr (fun depth => steady_expression twins_eq depth)
        twins_eq) (fun _ => steady_equalityOp twins_eq)
    have hend : Reader.spaced equalityOp (']' :: r) = none := rfl
    have hmany : Reader.many (.both (.spaced equalityOp) (relationalExpr expression))
        ('=' :: (value ++ ']' :: r)) = some ([(.equals, e)], ']' :: r) := by
      rw [hstrict.many_of_some (both_eq_some.mpr ⟨_, hop, hright⟩), many_of_none]
      · rfl
      · simp [Reader.both, hend]
    have htext : '@' :: text ++ '=' :: value ++ ']' :: r =
        '@' :: text ++ '=' :: (value ++ ']' :: r) := by simp
    rw [htext]
    refine expression_of_equalityExpr hclose ?_
    rw [equalityExpr, leftChain, map_eq_some]
    exact ⟨(attributePath test, [(.equals, e)]), both_eq_some.mpr ⟨_, hleft, hmany⟩, rfl⟩

end Attribute

theorem predicate_of_inner (h : Inner text e) (r : List Char) :
    predicate expression ('[' :: text ++ ']' :: r) = some (e, skipSpace r) := by
  have hopen : Reader.spaced (.char '[') ('[' :: text ++ ']' :: r) = some ((), text ++ ']' :: r) :=
    spaced_eq_some.mpr ⟨text ++ ']' :: r, rfl, h.skipSpace _⟩
  have hclose : Reader.spaced (.char ']') (']' :: r) = some ((), skipSpace r) := rfl
  exact map_eq_some.mpr ⟨((), e, ()),
    both_eq_some.mpr ⟨_, hopen, both_eq_some.mpr ⟨_, h.reads r, hclose⟩⟩, rfl⟩

theorem strict_predicate : Strict (predicate expression) := by
  have hsteady : ∀ bound, Steady (fun _ s s' => s = s') bound 1 0 0 (predicate expression)
      (predicate expression) := fun _ =>
    steady_predicate (fun depth => steady_expression twins_eq depth) twins_eq
  exact strict_of_steady hsteady

theorem Item.inner (h : Item text e) : Inner text e where
  skipSpace := h.skipSpace
  reads r := h.reads ']' r (.inr (.inr rfl))

/-- Predicates one behind the other, in front of a text that is none. Spaces behind the last one
are skipped. -/
theorem many_predicate_append {texts : List (List Char)} {es : List Expr}
    (h : List.Forall₂ Inner texts es) (hr : (Text.skipSpace r).head? ≠ some '[') :
    ∃ t, (t = r ∨ t = Text.skipSpace r) ∧ Reader.many (predicate expression)
      ((texts.flatMap fun text => '[' :: text ++ [']']) ++ r) = some (es, t) := by
  induction h with
  | nil => exact ⟨r, .inl rfl, many_of_none (predicate_of_head_ne hr expression)⟩
  | @cons text e texts es hfirst hmore ih =>
    have htext : (text :: texts).flatMap (fun text => '[' :: text ++ [']']) ++ r =
        '[' :: text ++ ']' :: ((texts.flatMap fun text => '[' :: text ++ [']']) ++ r) := by
      simp [List.flatMap_cons]
    rw [htext, strict_predicate.many_of_some (predicate_of_inner hfirst _)]
    cases hmore with
    | nil =>
      refine ⟨Text.skipSpace r, .inr rfl, ?_⟩
      rw [List.flatMap_nil, List.nil_append,
        many_of_none (predicate_of_head_ne (by rwa [skipSpace_skipSpace]) expression)]
      rfl
    | @cons second e' texts es hsecond hmore =>
      obtain ⟨t, ht, hmany⟩ := ih
      have hskip : Text.skipSpace
          (((second :: texts).flatMap fun text => '[' :: text ++ [']']) ++ r) =
          ((second :: texts).flatMap fun text => '[' :: text ++ [']']) ++ r := rfl
      exact ⟨t, ht, by rw [hskip, hmany]; rfl⟩

/-- Predicates to the end of a text. -/
theorem many_predicate {texts : List (List Char)} {es : List Expr}
    (h : List.Forall₂ Inner texts es) :
    Reader.many (predicate expression) (texts.flatMap fun text => '[' :: text ++ [']']) =
      some (es, []) := by
  obtain ⟨t, ht, hmany⟩ := many_predicate_append h (r := []) (by simp [Text.skipSpace])
  rw [List.append_nil] at hmany
  rcases ht with rfl | rfl <;> exact hmany

end MarkupQuery.Query
