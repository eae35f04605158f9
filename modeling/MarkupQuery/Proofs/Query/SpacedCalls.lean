import MarkupQuery.Proofs.Query.SpacedGrammar

namespace MarkupQuery.Query

open MarkupQuery.Text MarkupQuery.Page

variable {α : Type} {u v w s s' r r' t x : List Char} {bound : Nat} {k : List Bool} {m : Mark} {c : Char}
  {S : Spot} {q : Place} {name : Option String × String}

section Names

theorem qualifiedName_eq_some (h : qualifiedName s = some (name, r)) :
    s = (joinName name).toList ++ r ∧ IsPlain name.2 ∧ ∀ qualifier ∈ name.1, IsPlain qualifier := by
  simp only [qualifiedName, Option.bind_eq_bind, Option.bind_eq_some_iff] at h
  obtain ⟨⟨first, t⟩, hfirst, h⟩ := h
  obtain ⟨rfl, hplain, -⟩ := plainName_eq_some hfirst
  split at h
  · rename_i more ht
    obtain rfl : t = ':' :: more := ht
    split at h
    · rename_i second after hsecond
      obtain ⟨rfl, hplain', -⟩ := plainName_eq_some hsecond
      cases h
      exact ⟨by simp [joinName], hplain', by simpa using hplain⟩
    · cases h
      exact ⟨rfl, hplain, by simp⟩
  · cases h
    exact ⟨rfl, hplain, by simp⟩

/-- The name of a function is one token, with its prefix. -/
theorem run_joinName (hname : IsPlain name.2) (hqualifier : ∀ qualifier ∈ name.1, IsPlain qualifier) :
    ∃ c cs, (joinName name).toList = c :: cs ∧ isNameStart c = true ∧
      (Mark.name [c] true).run cs = some (.name (c :: cs) true) := by
  obtain ⟨qualifier, localName⟩ := name
  obtain ⟨c, cs, htext, hstart, hcs⟩ := hname.eq_cons
  cases qualifier with
  | none => exact ⟨c, cs, htext, hstart, Mark.run_name hcs [c] true⟩
  | some qualifier =>
    obtain ⟨d, ds, htext', hstart', hds⟩ := (hqualifier qualifier rfl).eq_cons
    have htext : localName.toList = c :: cs := htext
    refine ⟨d, ds ++ ':' :: c :: cs, by simp [joinName, htext, htext'], hstart', ?_⟩
    have hcolon : (Mark.name (d :: ds) true).run (':' :: c :: cs) =
        (Mark.name (d :: ds ++ [':', c]) true).run cs := by
      rw [Mark.run, show (Mark.name (d :: ds) true).extend? ':' = some (.colon (d :: ds) true) from rfl,
        Option.bind_some, Mark.run, Mark.extend?_colon hstart, Option.bind_some]
    rw [Mark.run_append, Mark.run_name hds, Option.bind_some, List.singleton_append, hcolon,
      Mark.run_name hcs]
    simp

theorem isNodeTypeName_joinName (h : isTypeName name = false) :
    isNodeTypeName (joinName name) = false := by
  obtain ⟨qualifier, localName⟩ := name
  cases qualifier with
  | none => simpa [isTypeName, joinName] using h
  | some qualifier => exact isNodeTypeName_of_colon (by simp [joinName])

end Names

def Called (k : List Bool) (q : Place) (_ : List Char) : Prop := Enclosed k q ∧ q.last.isCall = true

theorem skips_called : Skips (Called k) := by
  intro q c t hc h
  refine ⟨h.1.skip hc, ?_⟩
  rw [Place.after_of_blank h.1.quote (isBlank_of_isSpace c hc)]
  exact h.2

section Calls

variable (h : Gap u v w)

include h

/-- Where a name of a function is read, arguments may follow. -/
theorem near_called (hn : Near u v w (.awaits k) s s') (hread : qualifiedName s = some (name, r))
    (hread' : qualifiedName s' = some (name, r')) (hr : Near u v w (.of u (NameEnd k)) r r')
    (htype : isTypeName name = false) : Near u v w (.of u (Called k)) r r' := by
  obtain ⟨htext, hname, hqualifier⟩ := qualifiedName_eq_some hread
  obtain ⟨htext', -, -⟩ := qualifiedName_eq_some hread'
  obtain ⟨c, cs, hjoin, hstart, hrun⟩ := run_joinName hname hqualifier
  have hcall : ∀ q t, Awaits k q ((joinName name).toList ++ t) →
      Called k (q.behind (joinName name).toList) t := by
    intro q t hq
    rw [hjoin, List.cons_append] at hq
    rw [hjoin, Place.behind_cons, hq.steps.name hstart, Place.behind_of_run hrun, ← hjoin]
    exact ⟨⟨rfl, rfl⟩, by simp [Place.right, Mark.isCall, isNodeTypeName_joinName htype]⟩
  -- what is read in front of the gap is the name
  have hfront : ∀ t, r = t ++ v → r' = t ++ (w ++ v) → Near u v w (.of u (Called k)) r r' := by
    rintro t rfl rfl
    cases hn with
    | same =>
      have hlength := congrArg List.length (htext.symm.trans htext')
      simp [h.filled] at hlength
    | @before read s₀ hu _ hq =>
      obtain rfl : s₀ = (joinName name).toList ++ t := by
        rw [← List.append_assoc] at htext
        exact List.append_cancel_right htext
      refine .intro (by rw [hu, List.append_assoc]) ?_
      rw [place_append]
      exact hcall _ t hq
    | gap hg => exact hg.elim
  cases hr with
  | same => exact .same r
  | before _ _ _ => exact hfront _ rfl rfl
  | gap _ => exact hfront [] rfl rfl

theorem agrees_callStart : Agrees (Near u v w) bound 1 (.awaits k) (.right u (true :: k) .opened)
    callStart callStart := by
  intro s s' hs hs' hn
  have hname : Agrees (Near u v w) bound 1 (.awaits k) (.of u (NameEnd k)) qualifiedName
      qualifiedName := agrees_qualifiedName h (fun _ _ hq => hq.steps) False.elim
  refine (hname s s' hs hs' hn).bind fun name r r' hread hread' hr hl hl' => ?_
  cases htype : isTypeName name with
  | true =>
    simp only [htype, if_true, Option.bind_eq_bind, Option.bind_fun_none]
    exact .none
  | false =>
    have hskip := Near.skipSpace h skips_called (near_called h hn hread hread' hr htype)
    have hopen : Agrees (Near u v w) bound 1 ⟨Called k, False⟩ (.right u (true :: k) .opened)
        (.char '(') (.char '(') :=
      agrees_char h (by decide) (fun q t hq => hq.2 ▸ hq.1.parenthesis) False.elim
    have hk := length_skipSpace_le r
    have hk' := length_skipSpace_le r'
    have hlength : (skipSpace r).length < bound := by omega
    have hsame := hopen (skipSpace r) (skipSpace r') hlength (by omega) hskip
    dsimp only
    generalize Reader.char '(' (skipSpace r) = x at hsame
    generalize Reader.char '(' (skipSpace r') = x' at hsame
    cases hsame with
    | none => exact .none
    | some hr hm hm' =>
      simp only [bind, Option.bind, htype, if_false, Bool.false_eq_true]
      exact .some hr (by omega) (by omega)

end Calls

section Congruence

/-- An expression is read alike where a path is, and white space in front of it is not looked at. -/
theorem expression_congr (hskip : skipSpace s = skipSpace s')
    (hpath : path expression s = path expression s') : expression s = expression s' := by
  have hchain : ∀ {operand : Reader Expr} {operator : Reader BinaryOp}, operand s = operand s' →
      leftChain operand operator s = leftChain operand operator s' := by
    intro operand operator h
    simp only [leftChain, Reader.map, Reader.both, h]
  have hsign : Reader.spaced (.char '-') s = Reader.spaced (.char '-') s' := by
    simp only [Reader.spaced, hskip]
  have hunary : unaryExpr expression s = unaryExpr expression s' := by
    have hunion : unionExpr expression s = unionExpr expression s' := hchain hpath
    unfold unaryExpr Reader.map Reader.both Reader.optional
    rw [← hsign]
    cases Reader.spaced (.char '-') s with
    | none => simp only [bind, Option.bind, hunion]
    | some found => rfl
  rw [expression_eq]
  exact hchain (hchain (hchain (hchain (hchain (hchain hunary)))))

/-- Where a primary expression is read, or no step begins, white space is skipped. -/
theorem path_congr (hskip : skipSpace s = skipSpace s')
    (h : primary expression s ≠ none ∨
      locationPath expression s = none ∧ locationPath expression s' = none) :
    path expression s = path expression s' := by
  have hprimary : primary expression s = primary expression s' := by
    simp only [primary, Reader.spaced, hskip]
  have hfiltered : filtered expression s = filtered expression s' := by
    simp only [filtered, Reader.map, Reader.both, hprimary]
  have hstart : Reader.orElse (filtered expression) (locationPath expression) s =
      Reader.orElse (filtered expression) (locationPath expression) s' := by
    unfold Reader.orElse
    rw [← hfiltered]
    rcases h with hsome | ⟨hnone, hnone'⟩
    · obtain ⟨⟨e, r⟩, hread⟩ := Option.ne_none_iff_exists'.mp hsome
      obtain ⟨es, t, hmany⟩ := exists_many (predicate expression) r
      simp [filtered, Reader.map, Reader.both, hread, hmany]
    · rw [hnone, hnone']
  simp only [path, Reader.map, Reader.both, hstart]

end Congruence

def argumentsRest : Reader (List Expr × Unit) :=
  .both (.separated (.spaced (.char ',')) expression) (.char ')')

theorem argumentsRest_of_none (hnone : expression s = none) (hs : s.head? ≠ some ')') :
    argumentsRest s = none := by
  simp [argumentsRest, Reader.both, Reader.separated, hnone, char_of_head_ne hs]

/-- Where an argument gets stuck no other one comes, and no parenthesis. -/
theorem argumentsRest_of_stalls (h : Stalls expression s) (hs : s.head? ≠ some ')') :
    argumentsRest s = none := by
  cases hread : expression s with
  | none => exact argumentsRest_of_none hread hs
  | some found =>
    obtain ⟨e, r⟩ := found
    have hstuck := h e r hread
    have hmany : Reader.many (.map Prod.snd (.both (.spaced (.char ',')) expression)) r =
        some ([], r) := many_of_none (furtherArgument_of_stuck hstuck)
    simp [argumentsRest, Reader.both, Reader.separated, hread, hmany,
      char_of_head_ne hstuck.head_ne_close]

theorem stuck_of_skipSpace (hr : (skipSpace r).head? = some c) (hstart : startsOperator c = false)
    (hc : c ∉ ['[', '/', '|', ',', ')', ']']) : Stuck r := by
  simp only [List.mem_cons, List.not_mem_nil, or_false, not_or] at hc
  obtain ⟨hbracket, hslash, hbar, hcomma, hparen, hclose⟩ := hc
  refine ⟨⟨c, hr, hstart, ?_⟩, predicate_of_head_ne ?_ expression, slashStep_of_no_slash ?_,
    barred_of_head_ne ?_⟩
  · rintro (rfl | rfl | rfl)
    · exact hcomma rfl
    · exact hparen rfl
    · exact hclose rfl
  · rw [hr]
    simpa using hbracket
  · intro hhead
    rw [skipSpace_of_slash hhead, hhead] at hr
    exact hslash (Option.some.inj hr).symm
  · rw [hr]
    simpa using hbar

/-- A call whose arguments cannot be read is read as a step, and nothing goes on behind it. -/
theorem stalls_expression_of_call {cs rest : List Char} (h : CallText cs rest)
    (hprimary : primary expression (cs ++ rest) = none) : Stalls expression (cs ++ rest) := by
  obtain ⟨c, hc, hstart⟩ := h.start
  have hhead : (cs ++ rest).head? = some c := by
    obtain ⟨cs, rfl⟩ := List.head?_eq_some_iff.mp hc
    rfl
  have hne : ∀ d, isNameStart d = false → (cs ++ rest).head? ≠ some d := by
    rintro d hd he
    obtain rfl := Option.some.inj (hhead.symm.trans he)
    simp [hstart] at hd
  have hskip : skipSpace (cs ++ rest) = cs ++ rest := by
    refine skipSpace_of_not_blank fun x hx => ?_
    obtain rfl := Option.some.inj (hhead.symm.trans hx)
    exact isBlank_of_isNameChar (isNameChar_of_isNameStart hstart)
  refine stalls_expression_of_path (by rw [hskip]; exact hne '-' (by decide))
    (stalls_path hprimary ?_)
  intro e r hread
  rw [locationPath_of_no_slash (hne '/' (by decide))] at hread
  refine stalls_relativePath (fun st t hstep => ?_) e r hread
  obtain ⟨d, hd, hends⟩ := h.step (Reader.rest_eq_some.mpr ⟨st, hstep⟩)
  have hnot : ∀ xs : List Char, ':' ∉ xs → '(' ∉ xs → xs.any isBlank = false → d ∉ xs := by
    intro xs hcolon hparen hxs hmem
    rcases hends with rfl | rfl | hblank
    · exact hcolon hmem
    · exact hparen hmem
    · exact List.any_eq_false.mp hxs d hmem hblank
  have hoperator : startsOperator d = false := by
    simpa [startsOperator] using hnot ['*', '+', '-', '=', '!', '<', '>', '&', 'd', 'm', 'a', 'o']
      (by decide) (by decide) (by decide)
  exact stuck_of_skipSpace hd hoperator (hnot _ (by decide) (by decide) (by decide))

theorem locationPath_of_no_start (hstep : ∀ c ∈ s.head?, startsStep c = false)
    (hslash : s.head? ≠ some '/') : locationPath expression s = none := by
  rw [locationPath_of_no_slash hslash]
  simp [relativePath, Reader.map, Reader.both, step_of_no_start hstep expression]

theorem startsPath_iff : startsPath s = true ↔ s.head? = some '/' ∨
    s.head?.any startsStep = true ∧ startsFraction s = false ∧ startsWithCall s = false := by
  simp [startsPath, and_assoc]

theorem exists_of_startsFraction (hs : startsFraction s = true) :
    ∃ c t, s = '.' :: c :: t ∧ c.isDigit = true := by
  unfold startsFraction at hs
  split at hs
  · exact ⟨_, _, rfl, hs⟩
  · cases hs

theorem primary_of_startsFraction (hs : startsFraction s = true) : primary expression s ≠ none := by
  obtain ⟨c, t, rfl, hc⟩ := exists_of_startsFraction hs
  have hnumeral : Number.numeral? ('.' :: c :: t) ≠ none := by
    have hpoint : ('.' :: c :: t).dropWhile Char.isDigit = '.' :: c :: t := rfl
    rw [Number.numeral_of_point hpoint]
    simp [hc]
  obtain ⟨⟨value, r⟩, hvalue⟩ := Option.ne_none_iff_exists'.mp hnumeral
  have hskip : skipSpace ('.' :: c :: t) = '.' :: c :: t := rfl
  simp [primary, Reader.spaced, Reader.orElse, Reader.map, hskip, hvalue]

theorem trimStart_of_startsStep (hs : s.head?.any startsStep = true) : trimStart s = s := by
  refine trimStart_of_head fun c hc => isBlank_of_startsStep ?_
  rwa [Option.mem_def.mp hc] at hs

/-- What is read as a path but begins none is a call whose arguments cannot be read. -/
theorem startsWithCall_of_locationPath (hs : startsPath s = false)
    (hprimary : primary expression s = none) (hpath : locationPath expression s ≠ none) :
    s.head?.any startsStep = true ∧ startsWithCall s = true := by
  obtain ⟨hslash, hstart⟩ : s.head? ≠ some '/' ∧ ¬ (s.head?.any startsStep = true ∧
      startsFraction s = false ∧ startsWithCall s = false) := by
    rw [← not_or, ← startsPath_iff]
    simp [hs]
  have hstep : s.head?.any startsStep = true := by
    by_contra hno
    refine hpath (locationPath_of_no_start (fun c hc => ?_) hslash)
    rw [Option.mem_def.mp hc] at hno
    simpa using hno
  have hfraction : startsFraction s = false := by
    by_contra hfraction
    exact primary_of_startsFraction (by simpa using hfraction) hprimary
  refine ⟨hstep, ?_⟩
  by_contra hcall
  exact hstart ⟨hstep, hfraction, by simpa using hcall⟩

theorem stalls_expression_of_startsWithCall (hs : s.head?.any startsStep = true)
    (hcall : startsWithCall s = true) (hprimary : primary expression s = none) :
    Stalls expression s := by
  have htext := callText_of_startsWithCall (trimStart_of_startsStep hs) hcall
  have hsplit : s.takeWhile isCallChar ++ s.dropWhile isCallChar = s :=
    List.takeWhile_append_dropWhile
  rw [← hsplit] at hprimary ⊢
  exact stalls_expression_of_call htext hprimary

section Arguments

variable (h : Gap u v w)

include h

theorem locationPath_space : locationPath expression (w ++ v) = none := by
  have hhead : ∀ c, isSpace c = false → (w ++ v).head? ≠ some c := fun c => h.head_ne
  rw [locationPath_of_no_slash (hhead '/' (by decide))]
  have hstep : step expression (w ++ v) = none := by
    refine step_of_no_start (fun c hc => ?_) expression
    cases hstart : startsStep c with
    | false => rfl
    | true =>
      have hblank := isBlank_of_startsStep hstart
      rw [isBlank_of_isSpace c (h.head_space c hc)] at hblank
      cases hblank
  simp [relativePath, Reader.map, Reader.both, hstep]

/-- Behind the white space no path is read, and no primary expression if there is none without it. -/
theorem stalls_expression_space (hs : v.head?.any startsStep = true)
    (hprimary : primary expression v = none) : Stalls expression (w ++ v) := by
  refine stalls_expression_of_path ?_ (stalls_path ?_ (stalls_of_none (locationPath_space h)))
  · rw [h.skip, skipSpace_of_not_blank]
    · intro hhead
      rw [hhead] at hs
      exact absurd hs (by decide)
    · intro c hc
      rw [Option.mem_def.mp hc] at hs
      exact isBlank_of_startsStep hs
  · simpa only [primary, Reader.spaced, h.skip] using hprimary

/-- Behind the parenthesis of a call at the gap no path begins, but another argument may. -/
theorem argumentsRest_gap (hu : place u = .right (true :: k) .opened) :
    argumentsRest (w ++ v) = argumentsRest v := by
  have hclose : v.head? ≠ some ')' := fun hv =>
    h.not_joins hu (.closed (.inr (.inr rfl)) rfl hv)
  have hclose' : (w ++ v).head? ≠ some ')' := h.head_ne (by decide)
  by_cases hread : primary expression v ≠ none ∨ locationPath expression v = none
  · -- the argument is read alike, if one is read
    have hexpression : expression (w ++ v) = expression v :=
      (expression_congr h.skip.symm (path_congr h.skip.symm (hread.imp_right fun hnone =>
        ⟨hnone, locationPath_space h⟩))).symm
    cases hnone : expression v with
    | none =>
      rw [argumentsRest_of_none hnone hclose,
        argumentsRest_of_none (hexpression.trans hnone) hclose']
    | some found => simp [argumentsRest, Reader.both, Reader.separated, hexpression, hnone]
  · -- without the white space a broken call is read as a step, and with it not at all
    obtain ⟨hprimary, hlocation⟩ : primary expression v = none ∧ locationPath expression v ≠ none := by
      simpa using hread
    have hpath : startsPath v = false := by
      by_contra hpath
      exact h.not_joins hu (.opened rfl rfl (by simpa using hpath))
    obtain ⟨hstep, hcall⟩ := startsWithCall_of_locationPath hpath hprimary hlocation
    rw [argumentsRest_of_stalls (stalls_expression_of_startsWithCall hstep hcall hprimary) hclose,
      argumentsRest_of_stalls (stalls_expression_space h hstep hprimary) hclose']

variable (hn : ∀ k, Agrees (Near u v w) (bound - 1) 0 (.awaits k) (.ended k v) expression expression)

include hn

/-- Where the arguments do not begin at the gap. -/
theorem agrees_argumentsRest : Agrees (Near u v w) (bound - 1) 0 (.awaits (true :: k)) ⟨Done k, True⟩
    argumentsRest argumentsRest := by
  have hcomma : Agrees (Near u v w) (bound - 1) 1
      ⟨fun q _ => Enclosed (true :: k) q, v.head? ≠ some ')'⟩ (.awaits (true :: k))
      (.spaced (.char ',')) (.spaced (.char ',')) := by
    refine agrees_spaced h skips_enclosed (T := ⟨Awaits (true :: k), True⟩) skips_awaits ?_
    refine .relax (agrees_char h (by decide) (fun _ _ hq => hq.comma) False.elim) fun _ _ hn =>
      hn.imp ?_ fun _ => trivial
    rintro q t rfl
    exact awaits_right rfl rfl
  have harguments : Agrees (Near u v w) (bound - 1) 0 (.awaits (true :: k))
      ⟨fun q _ => Enclosed (true :: k) q, v.head? ≠ some ')'⟩ expression expression :=
    (hn (true :: k)).relax fun _ _ hr => hr.imp (fun _ _ hq => hq.toEnclosed) fun hg => hg rfl
  exact .weaken (.both (hcomma.separatedTo harguments fun _ _ hr _ =>
    hr.imp (fun _ _ hq => hq.toEnclosed) False.elim)
    (agrees_close h (.inl rfl) (fun _ _ hq => hq) fun hg => hg))

theorem agrees_functionCall : Agrees (Near u v w) bound 0 (.awaits k) ⟨Done k, True⟩
    (functionCall expression) (functionCall expression) := by
  have harguments : Agrees (Near u v w) (bound - 1) 0 (.right u (true :: k) .opened) ⟨Done k, True⟩
      argumentsRest argumentsRest := by
    intro s s' hs hs' hr
    have hrest := agrees_argumentsRest h hn (k := k)
    cases hr with
    | same => exact hrest s s hs hs' (.same s)
    | before hu ht hplace =>
      exact hrest _ _ hs hs' (.before hu ht (hplace ▸ awaits_right rfl rfl))
    | gap hu =>
      rw [argumentsRest_gap h hu]
      have hsame := hrest v v hs hs (.same v)
      cases hread : argumentsRest v with
      | none => exact .none
      | some found =>
        rw [hread] at hsame
        cases hsame with
        | some _ hl _ => exact .some (.same _) hl (by rw [List.length_append]; omega)
  rw [functionCall_eq]
  exact .weaken (.map _ (.both (agrees_callStart h) harguments))

end Arguments

end MarkupQuery.Query
