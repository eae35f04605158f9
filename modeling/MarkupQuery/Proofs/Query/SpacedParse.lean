import MarkupQuery.Proofs.Query.SpacedCalls

namespace MarkupQuery.Query

open MarkupQuery.Text MarkupQuery.Page

variable {u v w s : List Char} {bound : Nat} {k : List Bool} {m : Mark} {c : Char} {q : Place}
  {e : Expr}

section Operands

variable (h : Gap u v w)
  (hn : ∀ k, Agrees (Near u v w) (bound - 1) 0 (.awaits k) (.ended k v) expression expression)

include h hn

theorem agrees_parenthesized : Agrees (Near u v w) bound 0 (.awaits k) (.done k v)
    (parenthesized expression) (parenthesized expression) := by
  have hopen : Agrees (Near u v w) bound 1 (.awaits k) (.awaits (false :: k))
      (.spaced (.char '(')) (.spaced (.char '(')) := by
    refine agrees_spaced h skips_awaits (T := ⟨Awaits (false :: k), True⟩) skips_awaits ?_
    refine .relax (agrees_char h (by decide) (fun _ _ hq => hq.parenthesis) False.elim)
      fun _ _ hn => hn.imp ?_ fun _ => trivial
    rintro q t rfl
    exact awaits_right rfl rfl
  exact .weaken (.map _ (.both hopen (.both (hn (false :: k))
    (agrees_spacedClose h (.inl rfl) skips_done fun _ _ hq => hq.toEnclosed))))

theorem agrees_primary : Agrees (Near u v w) bound 0 (.awaits k) (.done k v)
    (primary expression) (primary expression) := by
  have hnumber : Agrees (Near u v w) bound 0 (.awaits k) ⟨Done k, True⟩ Number.numeral?
      Number.numeral? := by
    refine .relax (agrees_numeral h (fun _ _ hq => hq.steps) id) fun _ _ hr =>
      hr.imp ?_ fun _ => trivial
    rintro q t rfl
    exact done_right rfl nofun
  have hliteral : Agrees (Near u v w) bound 0 (.awaits k) ⟨Done k, True⟩ stringLiteral
      stringLiteral := by
    refine .relax (agrees_stringLiteral h (fun _ _ hq => hq.steps) id) fun _ _ hr =>
      hr.imp ?_ fun _ => trivial
    rintro q t rfl
    exact done_right rfl nofun
  have hparen : Agrees (Near u v w) bound 0 (.awaits k) ⟨Done k, True⟩ (parenthesized expression)
      (parenthesized expression) :=
    (agrees_parenthesized h hn).relax fun _ _ hr => hr.imp (fun _ _ hq => hq) fun _ => trivial
  refine .relax (agrees_spaced h (T := ⟨Done k, True⟩) skips_awaits skips_done
    (.orElse (.map _ hnumber) (.orElse (.map _ hliteral)
      (.orElse (agrees_functionCall h hn) hparen)))) fun _ _ hr =>
    hr.imp (fun _ _ hq => hq) False.elim

theorem agrees_path : Agrees (Near u v w) bound 0 (.awaits k) (.ended k v)
    (path expression) (path expression) := by
  have hfiltered : Agrees (Near u v w) bound 0 (.awaits k) (.done k v) (filtered expression)
      (filtered expression) :=
    .map _ (.both (agrees_primary h hn) (.many (agrees_predicate h hn)))
  refine .relax (.map _ (.both (.orElse hfiltered (agrees_locationPath h hn))
    (agrees_slashSteps h hn))) fun _ _ hr => hr.imp (fun _ _ hq => hq) And.right

end Operands

section Operators

variable (h : Gap u v w)

include h

theorem agrees_sign (op : BinaryOp) (hc : c ∈ ['|', '+', '-', '=', '!', '<', '>']) :
    Agrees (Near u v w) bound 1 ⟨Done k, False⟩ ⟨Awaits k, True⟩ (operatorChar op c)
      (operatorChar op c) := by
  have hspace : isSpace c = false :=
    Bool.eq_false_of_not_eq_true (List.any_eq_false.mp (by decide) c hc)
  refine .relax (.map _ (agrees_char h hspace (fun q t hq => Done.sign hq hc) False.elim))
    fun _ _ hr => hr.imp ?_ fun _ => trivial
  rintro q t rfl
  exact awaits_right rfl rfl

theorem agrees_times : Agrees (Near u v w) bound 1 ⟨Done k, False⟩ ⟨Awaits k, True⟩
    (operatorChar .times '*') (operatorChar .times '*') := by
  refine .relax (.map _ (agrees_char h (by decide) (fun q t hq => Done.star hq) False.elim))
    fun _ _ hr => hr.imp ?_ fun _ => trivial
  rintro q t rfl
  exact awaits_right rfl rfl

/-- The token of an operator in several characters. -/
theorem agrees_operatorWord (op : BinaryOp) {text : String} {cs : List Char}
    (ht : text.toList = c :: cs) (hspace : (c :: cs).any isSpace = false)
    (hc : c ∈ ['!', '<', '>'] ∧ (Mark.sign c).run cs = some m ∨
      c = '&' ∧ Mark.entity.run cs = some m) (hm : m.awaits = true ∧ m.isName = false) :
    Agrees (Near u v w) bound 1 ⟨Done k, False⟩ ⟨Awaits k, True⟩ (operatorWord op text)
      (operatorWord op text) := by
  have hblanks : ∀ d ∈ c :: cs, isSpace d = false := fun d hd =>
    Bool.eq_false_of_not_eq_true (List.any_eq_false.mp hspace d hd)
  have hrun : ∀ q t, Done k q (c :: t) →
      ∃ m₀ m', q.after c = .right k m₀ ∧ m₀.run cs = some m' ∧ (c :: cs <+: c :: t → m' = m) := by
    intro q t hq
    rcases hc with ⟨hc, hrun⟩ | ⟨rfl, hrun⟩
    · have hsign : c ∈ ['|', '+', '-', '=', '!', '<', '>'] := by
        simp only [List.mem_cons, List.not_mem_nil, or_false] at hc ⊢
        tauto
      exact ⟨_, m, hq.sign hsign, hrun, fun _ => rfl⟩
    · exact ⟨_, m, hq.entity, hrun, fun _ => rfl⟩
  refine .relax (.map _ (agrees_word h ht hblanks hrun False.elim)) fun _ _ hr =>
    hr.imp ?_ fun _ => trivial
  rintro q t rfl
  exact awaits_right hm.1 hm.2

theorem agrees_operatorName (op : BinaryOp) {text : String} (ht : text ∈ operatorNames) :
    Agrees (Near u v w) bound 1 ⟨Done k, False⟩ ⟨Awaits k, True⟩ (operatorName op text)
      (operatorName op text) :=
  .relax (.map _ (agrees_wholeWord h ht (fun _ _ hq => hq) id)) fun _ _ hr =>
    hr.imp (fun _ _ hq => hq) fun _ => trivial

theorem agrees_relationalOp : Agrees (Near u v w) bound 1 ⟨Done k, False⟩ ⟨Awaits k, True⟩
    relationalOp relationalOp :=
  .orElse (agrees_operatorWord h _ rfl (by decide) (.inl ⟨by decide, rfl⟩) ⟨rfl, rfl⟩) <|
  .orElse (agrees_operatorWord h _ rfl (by decide) (.inr ⟨rfl, rfl⟩) ⟨rfl, rfl⟩) <|
  .orElse (agrees_operatorWord h _ rfl (by decide) (.inl ⟨by decide, rfl⟩) ⟨rfl, rfl⟩) <|
  .orElse (agrees_operatorWord h _ rfl (by decide) (.inr ⟨rfl, rfl⟩) ⟨rfl, rfl⟩) <|
  .orElse (agrees_sign h _ (by decide)) <|
  .orElse (agrees_operatorWord h _ rfl (by decide) (.inr ⟨rfl, rfl⟩) ⟨rfl, rfl⟩) <|
  .orElse (agrees_sign h _ (by decide))
    (agrees_operatorWord h _ rfl (by decide) (.inr ⟨rfl, rfl⟩) ⟨rfl, rfl⟩)

theorem agrees_equalityOp : Agrees (Near u v w) bound 1 ⟨Done k, False⟩ ⟨Awaits k, True⟩
    equalityOp equalityOp :=
  .orElse (agrees_sign h _ (by decide))
    (agrees_operatorWord h _ rfl (by decide) (.inl ⟨by decide, rfl⟩) ⟨rfl, rfl⟩)

theorem agrees_additiveOp : Agrees (Near u v w) bound 1 ⟨Done k, False⟩ ⟨Awaits k, True⟩
    additiveOp additiveOp :=
  .orElse (agrees_sign h _ (by decide)) (agrees_sign h _ (by decide))

theorem agrees_multiplicativeOp : Agrees (Near u v w) bound 1 ⟨Done k, False⟩ ⟨Awaits k, True⟩
    multiplicativeOp multiplicativeOp :=
  .orElse (agrees_times h) <|
    .orElse (agrees_operatorName h _ (by decide)) (agrees_operatorName h _ (by decide))

theorem agrees_leftChain {operand : Reader Expr} {operator : Reader BinaryOp}
    (hp : Agrees (Near u v w) bound 0 (.awaits k) (.ended k v) operand operand)
    (ho : Agrees (Near u v w) bound 1 ⟨Done k, False⟩ ⟨Awaits k, True⟩ operator operator) :
    Agrees (Near u v w) bound 0 (.awaits k) (.ended k v) (leftChain operand operator)
      (leftChain operand operator) := by
  have hoperator : Agrees (Near u v w) bound 1 (.ended k v) (.awaits k) (.spaced operator)
      (.spaced operator) := agrees_spaced h skips_done (T := ⟨Awaits k, True⟩) skips_awaits ho
  exact .map _ (.both hp (.many (.both hoperator (.rest hp 1))))

variable (hn : ∀ k, Agrees (Near u v w) (bound - 1) 0 (.awaits k) (.ended k v) expression expression)

include hn

theorem agrees_unaryExpr : Agrees (Near u v w) bound 0 (.awaits k) (.ended k v)
    (unaryExpr expression) (unaryExpr expression) := by
  have hsign : Agrees (Near u v w) bound 1 (.awaits k) (.awaits k) (.spaced (.char '-'))
      (.spaced (.char '-')) := by
    refine agrees_spaced h skips_awaits (T := ⟨Awaits k, True⟩) skips_awaits ?_
    refine .relax (agrees_char h (by decide) (fun _ _ hq => hq.steps.minus) False.elim)
      fun _ _ hr => hr.imp ?_ fun _ => trivial
    rintro q t rfl
    exact awaits_right rfl rfl
  exact .map _ (.both (.optional hsign)
    (agrees_leftChain h (agrees_path h hn) (agrees_sign h _ (by decide))))

/-- An expression is read alike if those that are nested in it are. -/
theorem agrees_orExpr : Agrees (Near u v w) bound 0 (.awaits k) (.ended k v)
    (orExpr expression) (orExpr expression) := by
  have hadditive : Agrees (Near u v w) bound 0 (.awaits k) (.ended k v) (additiveExpr expression)
      (additiveExpr expression) :=
    agrees_leftChain h (agrees_leftChain h (agrees_unaryExpr h hn) (agrees_multiplicativeOp h))
      (agrees_additiveOp h)
  have hequality : Agrees (Near u v w) bound 0 (.awaits k) (.ended k v) (equalityExpr expression)
      (equalityExpr expression) :=
    agrees_leftChain h (agrees_leftChain h hadditive (agrees_relationalOp h)) (agrees_equalityOp h)
  exact agrees_leftChain h
    (agrees_leftChain h hequality (agrees_operatorName h _ (by decide)))
    (agrees_operatorName h _ (by decide))

omit hn in
theorem agrees_expression (k : List Bool) :
    Agrees (Near u v w) bound 0 (.awaits k) (.ended k v) expression expression := by
  induction bound generalizing k with
  | zero => exact fun s _ hs => absurd hs (Nat.not_lt_zero _)
  | succ bound ih =>
    rw [expression_eq]
    exact agrees_orExpr h ih

end Operators

section Trimming

/-- Blanks behind a text take nothing away from the calls in it. -/
theorem startsWithCall_trimEnd (hs : trimStart s = s) (h : startsWithCall s = true) :
    startsWithCall (trimEnd s) = true := by
  have htext := callText_of_startsWithCall hs h
  have hsplit : s.takeWhile isCallChar ++ s.dropWhile isCallChar = s :=
    List.takeWhile_append_dropWhile
  generalize s.takeWhile isCallChar = cs at htext hsplit
  generalize s.dropWhile isCallChar = rest at htext hsplit
  obtain ⟨bl, hrest, hblanks⟩ : ∃ bl, rest = bl ++ trimStart rest ∧ ∀ c ∈ bl, isBlank c = true :=
    ⟨rest.takeWhile isBlank, List.takeWhile_append_dropWhile.symm, fun c => List.mem_takeWhile_imp⟩
  obtain ⟨more, hmore⟩ := List.head?_eq_some_iff.mp htext.opens
  obtain ⟨more', hmore'⟩ : ∃ more', trimEnd ('(' :: more) = '(' :: more' := by
    have hhead : (trimEnd ('(' :: more)).head? = some '(' :=
      head_trimEnd (s := '(' :: more) (by simp; decide)
    exact List.head?_eq_some_iff.mp hhead
  have htrim : trimEnd s = cs ++ (bl ++ '(' :: more') := by
    rw [← hsplit, hrest, hmore, ← List.append_assoc, trimEnd_append _ (by simp [hmore']), hmore',
      List.append_assoc]
  rw [htrim]
  refine CallText.startsWithCall
    ⟨htext.chars, htext.start, htext.noAxis, htext.noType, fun c hc => ?_, ?_⟩
  · refine htext.ends c ?_
    rw [hrest, hmore]
    cases bl <;> exact hc
  · rw [trimStart, List.dropWhile_append_of_pos hblanks]
    rfl

theorem startsFraction_trimEnd (h : startsFraction s = true) : startsFraction (trimEnd s) = true := by
  obtain ⟨c, t, rfl, hc⟩ := exists_of_startsFraction h
  have hlast : ∀ x ∈ ['.', c].getLast?, isBlank x = false := by
    simpa using isBlank_of_isNameChar (isNameChar_of_isDigit hc)
  rw [show '.' :: c :: t = ['.', c] ++ t from rfl, trimEnd_append_of_last hlast]
  exact hc

theorem head_trimEnd_of_ne_nil (hs : trimEnd s ≠ []) : (trimEnd s).head? = s.head? := by
  obtain ⟨bl, hbl, -⟩ := exists_trimEnd s
  conv_rhs => rw [hbl]
  rw [List.head?_append_of_ne_nil _ hs]

theorem Joins.trimEnd (h : Joins q (Text.trimEnd v)) (hv : Text.trimEnd v ≠ []) : Joins q v := by
  have hhead := head_trimEnd_of_ne_nil hv
  cases h with
  | marked h => exact .marked h
  | colons h =>
    obtain ⟨bl, hbl, -⟩ := exists_trimEnd v
    refine .colons (h.trans ?_)
    conv_rhs => rw [hbl]
    exact List.prefix_append _ bl
  | stepped h hs => exact .stepped h (hhead ▸ hs)
  | slashed h hs => exact .slashed h (hhead ▸ hs)
  | opened h hc hs =>
    refine .opened h hc (startsPath_iff.mpr ?_)
    rcases startsPath_iff.mp hs with hslash | ⟨hstep, hfraction, hcall⟩
    · exact .inl (hhead ▸ hslash)
    rw [hhead] at hstep
    refine .inr ⟨hstep, ?_, ?_⟩
    · by_contra hno
      simp [startsFraction_trimEnd (by simpa using hno)] at hfraction
    · by_contra hno
      have hstart := trimStart_of_startsStep hstep
      simp [startsWithCall_trimEnd hstart (by simpa using hno)] at hcall
  | closed h hc hs => exact .closed h hc (hhead ▸ hs)

theorem place_trimStart (hu : trimStart u ≠ []) : place (trimStart u) = place u := by
  have hblanks : ∀ (bl : List Char) (b : Bool), (∀ c ∈ bl, isBlank c = true) →
      ∃ b', ({ spaced := b } : Place).behind bl = { spaced := b' } := by
    intro bl
    induction bl with
    | nil => exact fun b _ => ⟨b, rfl⟩
    | cons c bl ih =>
      intro b hbl
      obtain ⟨hc, hbl⟩ := List.forall_mem_cons.mp hbl
      rw [Place.behind_cons, Place.after_of_blank rfl hc]
      exact ih true hbl
  obtain ⟨b, hb⟩ := hblanks (u.takeWhile isBlank) false fun c => List.mem_takeWhile_imp
  have hsplit : place u = ({ spaced := b } : Place).behind (trimStart u) := by
    conv_lhs => rw [← List.takeWhile_append_dropWhile (p := isBlank) (l := u)]
    rw [place_append, ← hb]
    rfl
  obtain ⟨c, t, ht⟩ := List.exists_cons_of_ne_nil hu
  have hc : isBlank c = false := by
    have hnot := List.head?_dropWhile_not isBlank u
    rw [show u.dropWhile isBlank = c :: t from ht] at hnot
    simpa using hnot
  rw [hsplit, ht, place, Place.behind_cons, Place.behind_cons,
    Place.after_of_fresh rfl hc fun _ => rfl, Place.after_of_fresh rfl hc fun _ => rfl]
  rfl

end Trimming

theorem Gap.expression_iff (h : Gap u v w) (hu : u ≠ []) :
    expression (u ++ (w ++ v)) = some (e, []) ↔ expression (u ++ v) = some (e, []) := by
  have hagrees : Agrees (Near u v w) ((u ++ (w ++ v)).length + 1) 0 (.awaits []) (.ended [] v)
      expression expression := agrees_expression h []
  have hbegin : Near u v w (.awaits []) (u ++ v) (u ++ (w ++ v)) :=
    .before (List.nil_append u).symm hu ⟨⟨⟨rfl, rfl⟩, nofun⟩, rfl⟩
  have hlength : (u ++ v).length < (u ++ (w ++ v)).length + 1 := by
    simp only [List.length_append]
    omega
  have hsame := hagrees _ _ hlength (by simp) hbegin
  have hends : ∀ r r', Near u v w (.ended [] v) r r' → (r = [] ↔ r' = []) := by
    intro r r' hr
    cases hr with
    | same => rfl
    | before _ hs _ => simp [hs]
    | gap _ => simp [h.more]
  generalize expression (u ++ v) = x at hsame
  generalize expression (u ++ (w ++ v)) = x' at hsame
  cases hsame with
  | none => rfl
  | some hr => simp [hends _ _ hr]

/-- Where white space may stand there is a gap, also if the blanks around the text are taken away. -/
theorem Separates.gap (hsep : Separates u v) (hloose : ¬ Abuts u v)
    (hw : ∀ c ∈ w, isSpace c = true) (hne : w ≠ []) (hu : trimStart u ≠ []) (hv : trimEnd v ≠ []) :
    Gap (trimStart u) (trimEnd v) w := by
  obtain ⟨hquote, happart⟩ := hsep
  have hjoins : (place u).spaced = false → ¬ Joins (place u) v := fun hs hj => hloose ⟨hs, hj⟩
  refine ⟨hw, hne, hv, ?_, ?_, ?_⟩ <;> rw [place_trimStart hu]
  · exact hquote
  · intro hs c hc
    rw [head_trimEnd_of_ne_nil hv] at hc
    exact (happart hs).resolve_left (fun hcolons => hjoins hs (.colons hcolons)) c hc
  · exact fun hs hj => hjoins hs (hj.trimEnd hv)

theorem trim_append (hu : trimStart u ≠ []) (hv : trimEnd v ≠ []) :
    trim (u ++ v) = trimStart u ++ trimEnd v := by
  have hstart : trimStart (u ++ v) = trimStart u ++ v := by
    unfold trimStart at hu ⊢
    rw [List.dropWhile_append, if_neg (by simpa using hu)]
  rw [trim, hstart, trimEnd_append _ hv]

/-- White space between tokens does not change what a query is parsed to, unless the readers expect the
next token directly behind the last one. -/
theorem parse_spaced_iff (hw : ∀ c ∈ w, isSpace c = true) (hsep : Separates u v)
    (hloose : ¬ Abuts u v) : parse (String.ofList (u ++ (w ++ v))) = .ok e ↔
      parse (String.ofList (u ++ v)) = .ok e := by
  rw [parse_eq_ok, parse_eq_ok, String.toList_ofList, String.toList_ofList]
  have hblanks : ∀ c ∈ w, isBlank c = true := fun c hc => isBlank_of_isSpace c (hw c hc)
  by_cases hempty : w = []
  · rw [hempty, List.nil_append]
  by_cases hu : trimStart u = []
  · have hbl : ∀ c ∈ u, isBlank c = true := List.dropWhile_eq_nil_iff.mp hu
    rw [trim_blanks_append hbl, trim_blanks_append hbl, trim_blanks_append hblanks]
  by_cases hv : trimEnd v = []
  · obtain ⟨bl, hbl, hall, -⟩ := exists_trimEnd v
    rw [hv, List.nil_append] at hbl
    rw [hbl, trim_append_blanks hall, trim_append_blanks]
    exact fun c hc => (List.mem_append.mp hc).elim (hblanks c) (hall c)
  have hmore : trimEnd (w ++ v) = w ++ trimEnd v := trimEnd_append w hv
  rw [trim_append hu hv, trim_append hu (by simp [hmore, hv]), hmore]
  exact (hsep.gap hloose hw hempty hu hv).expression_iff hu

/-- White space in front of a bar, and of the parenthesis of a call. -/
theorem parse_spaced_iff_call :
    (∀ c ∈ [' ', '\n'], isSpace c = true) ∧ Separates "count".toList "(a|b)".toList ∧
      ¬ Abuts "count".toList "(a|b)".toList ∧
      ∃ e, parse "count(a|b)" = .ok e ∧ parse "count \n(a|b)" = .ok e := by
  have hspaces : ∀ c ∈ [' ', '\n'], isSpace c = true := by simp [isSpace]
  have hsep : Separates "count".toList "(a|b)".toList := by decide +kernel
  have hloose : ¬ Abuts "count".toList "(a|b)".toList := by decide +kernel
  have hok : (parse "count(a|b)").isOk = true := by decide +kernel
  cases hread : parse "count(a|b)" with
  | error e => simp [hread, Except.isOk, Except.toBool] at hok
  | ok e => exact ⟨hspaces, hsep, hloose, e, rfl, (parse_spaced_iff hspaces hsep hloose).mpr hread⟩

/-- White space is an error inside the parentheses of a call and next to the signs of a path. -/
theorem white_space_rejected :
    (Separates "count(".toList "a)".toList ∧ (parse "count(a)").isOk ∧ ¬ (parse "count( a)").isOk) ∧
    (Separates "count(a".toList ")".toList ∧ (parse "count(a)").isOk ∧ ¬ (parse "count(a )").isOk) ∧
    (Separates "@".toList "a".toList ∧ (parse "@a").isOk ∧ ¬ (parse "@ a").isOk) ∧
    (Separates "self".toList "::a".toList ∧ (parse "self::a").isOk ∧ ¬ (parse "self ::a").isOk) ∧
    (Separates "a".toList "/b".toList ∧ (parse "a/b").isOk ∧ ¬ (parse "a /b").isOk) ∧
    (Separates "/".toList "a".toList ∧ (parse "/a").isOk ∧ ¬ (parse "/ a").isOk) := by
  decide +kernel

end MarkupQuery.Query
