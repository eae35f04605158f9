import MarkupQuery.Proofs.Query.SteadyWords

namespace MarkupQuery.Query

open MarkupQuery.Text MarkupQuery.Page

variable {α : Type} {R : Nesting → List Char → List Char → Prop}
  {bound depth depth' : Nat} {s s' : List Char}

theorem qualifiedName_of_none (h : plainName s = none) : qualifiedName s = none := by
  simp [qualifiedName, h]

theorem qualifiedName_of_plain {first : String} {rest : List Char}
    (h : plainName s = some (first, rest)) (hrest : ∀ c ∈ rest.head?, c ≠ ':') :
    qualifiedName s = some ((none, first), rest) := by
  simp only [qualifiedName, h, Option.bind_eq_bind, Option.bind_some]
  split
  · exact absurd rfl (hrest _ rfl)
  · rfl

theorem qualifiedName_of_colon {first : String} {more : List Char}
    (h : plainName s = some (first, ':' :: more)) : qualifiedName s =
      (((plainName more).map fun (second, after) => ((some first, second), after)).getD
        ((none, first), ':' :: more)) := by
  simp only [qualifiedName, h, Option.bind_eq_bind, Option.bind_some]
  cases plainName more <;> rfl

/-- A qualified name is two names with a colon between them, or the first one alone. -/
theorem Agrees.qualifiedName {ι : Type} {R : ι → List Char → List Char → Prop} {i j k : ι}
    (hfirst : Agrees R bound 1 i j plainName plainName)
    (hcolon : ∀ s s', R j s s' →
      (∃ more more', s = ':' :: more ∧ s' = ':' :: more' ∧ R k more more') ∨
        (∀ c ∈ s.head?, c ≠ ':') ∧ ∀ c ∈ s'.head?, c ≠ ':')
    (hsecond : Agrees R bound 1 k j plainName plainName) :
    Agrees R bound 1 i j qualifiedName qualifiedName := by
  intro s s' hs hs' h
  have hsame := hfirst s s' hs hs' h
  generalize hx : plainName s = x at hsame
  generalize hx' : plainName s' = x' at hsame
  cases hsame with
  | none =>
    rw [qualifiedName_of_none hx, qualifiedName_of_none hx']
    exact .none
  | @some first rest rest' hr hl hl' =>
    rcases hcolon _ _ hr with ⟨more, more', rfl, rfl, hmore⟩ | ⟨hrest, hrest'⟩
    · rw [List.length_cons] at hl hl'
      have hlength : more.length < bound := by omega
      have hsame := hsecond more more' hlength (by omega) hmore
      rw [qualifiedName_of_colon hx, qualifiedName_of_colon hx']
      generalize plainName more = y at hsame
      generalize plainName more' = y' at hsame
      cases hsame with
      | none => exact .some hr (by simpa using hl) (by simpa using hl')
      | @some second after after' ht hk hk' =>
        have hm : after.length + 1 ≤ s.length := by omega
        have hm' : after'.length + 1 ≤ s'.length := by omega
        exact .some ht hm hm'
    · rw [qualifiedName_of_plain hx hrest, qualifiedName_of_plain hx' hrest']
      exact .some hr hl hl'

theorem steady_qualifiedName (hR : Twins R) :
    Steady R bound 1 depth depth qualifiedName qualifiedName := by
  refine .qualifiedName (steady_plainName hR) (fun s s' h => ?_) (steady_plainName hR)
  have hcolon : Passes depth depth ':' := passes_of_isPlain rfl (.inr rfl)
  rcases hR.cases_passes h (· = ':') (fun c hc => ⟨depth, hc ▸ hcolon⟩) with
    ⟨_, more, more', rfl, rfl, rfl, hmore⟩ | hne
  · exact .inl ⟨more, more', rfl, rfl, hcolon.1 ▸ hmore⟩
  · exact .inr hne

/-- Reading the first of some words is steady if reading each of them is. -/
theorem steady_oneOf (hR : Twins R) {entries : List (α × String)}
    (he : ∀ entry ∈ entries, ∀ c ∈ entry.2.toList, Passes depth depth c) :
    Steady R bound 0 depth depth
      (fun s => entries.findSome? fun (a, name) => Reader.map (fun _ => a) (.word name) s)
      (fun s => entries.findSome? fun (a, name) => Reader.map (fun _ => a) (.word name) s) :=
  .oneOf fun entry hentry => .weaken (steady_word hR (he entry hentry))

def areWords (entries : List (α × String)) : Bool :=
  entries.all fun entry => entry.2.toList.all fun c => isPlain c && !isStop c

theorem passes_of_areWords {entries : List (α × String)} (h : areWords entries = true) :
    ∀ entry ∈ entries, ∀ c ∈ entry.2.toList, Passes depth depth c := by
  intro entry hentry c hc
  have hboth := List.all_eq_true.mp (List.all_eq_true.mp h entry hentry) c hc
  simp only [Bool.and_eq_true, Bool.not_eq_true'] at hboth
  exact passes_of_isPlain hboth.1 (.inr hboth.2)

theorem steady_nodeType (hR : Twins R) : Steady R bound 0 depth depth nodeType nodeType :=
  steady_oneOf hR (passes_of_areWords (show areWords nodeTypeNames = true by decide))

theorem steady_axisName (hR : Twins R) : Steady R bound 0 depth depth axisName axisName :=
  steady_oneOf hR (passes_of_areWords (show areWords axisNames = true by decide))

/-- A word of plain characters that are no stops. -/
theorem steady_plainWord (hR : Twins R) {text : String} (ht : areWords [((), text)] = true)
    (hl : 0 < text.toList.length) : Steady R bound 1 depth depth (.word text) (.word text) :=
  .mono (steady_word hR (passes_of_areWords ht _ List.mem_cons_self)) hl (Nat.le_refl _)

theorem steady_plainChar (hR : Twins R) {c : Char} (hc : isPlain c = true)
    (hs : isStop c = false) : Steady R bound 1 depth depth (.char c) (.char c) :=
  steady_char hR (passes_of_isPlain hc (.inr hs))

theorem steady_open (hR : Twins R) {c : Char} (hc : c = '[' ∨ c = '(') :
    Steady R bound 1 depth (depth + 1) (.char c) (.char c) :=
  steady_char hR (passes_open hc depth)

theorem steady_close (hR : Twins R) {c : Char} (hc : c = ']' ∨ c = ')') :
    Steady R bound 1 (depth + 1) depth (.char c) (.char c) :=
  steady_char hR (passes_close hc depth)

theorem steady_typeTest (hR : Twins R) : Steady R bound 1 depth depth typeTest typeTest :=
  .mono (.map _ (.both (steady_nodeType hR) (.both (hR.spaced (steady_open hR (.inr rfl)))
    (hR.spaced (steady_close hR (.inr rfl)))))) (by omega) (Nat.le_refl _)

theorem steady_anyInTest (hR : Twins R) : Steady R bound 1 depth depth anyInTest anyInTest :=
  .mono (.map _ (.both (steady_plainName hR) (steady_plainWord hR (by decide) (by decide))))
    (by omega) (Nat.le_refl _)

theorem steady_nodeTest (hR : Twins R) : Steady R bound 1 depth depth nodeTest nodeTest :=
  .orElse (.map _ (steady_plainChar hR rfl rfl)) <|
  .orElse (steady_typeTest hR) <|
  .orElse (steady_anyInTest hR) <|
  .map _ (steady_qualifiedName hR)

theorem steady_axis (hR : Twins R) : Steady R bound 0 depth depth axis axis :=
  .weaken (.map _ (.both (steady_axisName hR) (steady_plainWord hR (by decide) (by decide))))

theorem steady_stepHead (hR : Twins R) : Steady R bound 1 depth depth stepHead stepHead :=
  .orElse (.map _ (steady_plainWord hR (by decide) (by decide))) <|
  .orElse (.map _ (steady_plainWord hR (by decide) (by decide))) <|
  .orElse (.mono (.map _ (.both (steady_plainChar hR rfl rfl) (steady_nodeTest hR))) (by omega)
    (Nat.le_refl _)) <|
  .mono (.map _ (.both (.optional (steady_axis hR)) (steady_nodeTest hR))) (by omega)
    (Nat.le_refl _)

theorem passes_inside {c : Char} (hc : isPlain c = true) (depth : Nat) :
    Passes (depth + 1) (depth + 1) c := passes_of_isPlain hc (.inl (Nat.succ_pos _))

theorem steady_innerChar (hR : Twins R) {c : Char} (hc : isPlain c = true) :
    Steady R bound 1 (depth + 1) (depth + 1) (.char c) (.char c) :=
  steady_char hR (passes_inside hc depth)

theorem steady_innerWord (hR : Twins R) {text : String} (ht : text.toList.all isPlain = true)
    (hl : 0 < text.toList.length) :
    Steady R bound 1 (depth + 1) (depth + 1) (.word text) (.word text) :=
  .mono (steady_word hR fun c hc => passes_inside (List.all_eq_true.mp ht c hc) depth) hl
    (Nat.le_refl _)

/-- What follows a whole word is looked at, but inside brackets it is the same in both texts. -/
theorem steady_wholeWord (hR : Twins R) {text : String} (ht : text.toList.all isPlain = true)
    (hl : 0 < text.toList.length) :
    Steady R bound 1 (depth + 1) (depth + 1) (wholeWord text) (wholeWord text) := by
  intro s s' hs hs' h
  have hword := steady_innerWord hR ht hl s s' hs hs' h
  unfold wholeWord
  generalize Reader.word text s = x at hword
  generalize Reader.word text s' = x' at hword
  cases hword with
  | none => exact .none
  | @some a r r' hr hk hk' =>
    rcases hR.cases_inside hr with ⟨rfl, rfl⟩ | ⟨c, t, t', rfl, rfl, -⟩
    · exact .some hr hk hk'
    · dsimp only
      split
      · exact .none
      · exact .some hr hk hk'

theorem locationPath_of_slash {s : List Char} (h : s.head? = some '/') (nested : Reader Expr) :
    locationPath nested s = absolutePath nested s := by
  obtain ⟨r, rfl⟩ := List.head?_eq_some_iff.mp h
  rfl

theorem locationPath_of_no_slash {s : List Char} (h : s.head? ≠ some '/')
    (nested : Reader Expr) : locationPath nested s = relativePath nested s := by
  unfold locationPath
  split
  · exact absurd rfl h
  · rfl

theorem isSome_char {c : Char} {s : List Char} :
    (Reader.char c s).isSome ↔ s.head? = some c := by
  cases s with
  | nil => simp [Reader.char]
  | cons d s =>
    by_cases hd : d = c <;> simp [Reader.char, hd]

def filteredFrom (start nested : Reader Expr) : Reader Expr :=
  .map (fun (e, predicates) => if predicates.isEmpty then e else .filter e predicates) <|
    .both start (.many (predicate nested))

def pathFrom (start nested : Reader Expr) : Reader Expr :=
  .map (fun (e, more) => e.continueBy more) <|
    .both (.orElse (filteredFrom start nested) (locationPath nested)) (slashSteps nested)

def callStart : Reader (Option String × String) := fun s => do
  let (name, rest) ← qualifiedName s
  let (_, rest) ← Reader.char '(' (skipSpace rest)
  if isTypeName name then none else pure (name, rest)

theorem functionCall_eq (nested : Reader Expr) : functionCall nested =
    .map (fun (name, arguments, _) => .call (joinName name) arguments)
      (.both callStart (.both (.separated (.spaced (.char ',')) nested) (.char ')'))) := by
  funext s
  simp only [functionCall, callStart, Reader.map, Reader.both]
  cases qualifiedName s with
  | none => rfl
  | some found =>
    obtain ⟨name, rest⟩ := found
    dsimp only [bind, Option.bind]
    cases Reader.char '(' (skipSpace rest) with
    | none => rfl
    | some opened =>
      dsimp only
      split
      · rfl
      · dsimp only [pure]
        cases Reader.separated (.spaced (.char ',')) nested opened.2 with
        | none => rfl
        | some read =>
          dsimp only
          cases Reader.char ')' read.2 <;> rfl

theorem steady_callStart (hR : Twins R) :
    Steady R bound 1 depth (depth + 1) callStart callStart := by
  intro s s' hs hs' h
  refine (steady_qualifiedName hR s s' hs hs' h).bind fun name r r' _ _ hr hl hl' => ?_
  have hk := length_skipSpace_le r
  have hk' := length_skipSpace_le r'
  have hlength : (skipSpace r).length < bound := by omega
  have hopen := steady_open hR (.inr rfl) (skipSpace r) (skipSpace r') hlength (by omega)
    (hR.skipSpace hr)
  dsimp only
  generalize Reader.char '(' (skipSpace r) = x at hopen
  generalize Reader.char '(' (skipSpace r') = x' at hopen
  cases hopen with
  | none => exact .none
  | some ht hm hm' =>
    dsimp only [bind, Option.bind]
    split
    · exact .none
    · exact .some ht (by omega) (by omega)

section Nested

variable {nested nested' : Reader Expr}
  (hn : ∀ depth, Steady R (bound - 1) 0 (depth + 1) (depth + 1) nested nested')

include hn

theorem steady_predicate (hR : Twins R) :
    Steady R bound 1 depth depth (predicate nested) (predicate nested') :=
  .mono (.map _ (.both (hR.spaced (steady_open hR (.inl rfl)))
    (.both (hn depth) (hR.spaced (steady_close hR (.inl rfl)))))) (by omega) (Nat.le_refl _)

theorem steady_step (hR : Twins R) :
    Steady R bound 1 depth depth (step nested) (step nested') :=
  .map _ (.both (steady_stepHead hR) (.rest (.many (steady_predicate hn hR)) 1))

theorem steady_filteredFrom (hR : Twins R) {start start' : Reader Expr}
    (hs : Steady R bound 0 depth depth start start') :
    Steady R bound 0 depth depth (filteredFrom start nested) (filteredFrom start' nested') :=
  .map _ (.both hs (.many (steady_predicate hn hR)))

theorem steady_functionCall (hR : Twins R) :
    Steady R bound 0 depth depth (functionCall nested) (functionCall nested') := by
  rw [functionCall_eq, functionCall_eq]
  exact .weaken (.map _ (.both (steady_callStart hR) (.both
    (.separated (hR.spaced (steady_innerChar hR rfl)) (hn depth))
    (steady_close hR (.inr rfl)))))

theorem steady_parenthesized (hR : Twins R) :
    Steady R bound 0 depth depth (parenthesized nested) (parenthesized nested') :=
  .weaken (.map _ (.both (hR.spaced (steady_open hR (.inr rfl)))
    (.both (hn depth) (hR.spaced (steady_close hR (.inr rfl))))))

theorem steady_primary (hR : Twins R) :
    Steady R bound 0 (depth + 1) (depth + 1) (primary nested) (primary nested') :=
  hR.spaced <|
  .orElse (.map _ (steady_numeral hR)) <|
  .orElse (.map _ (steady_stringLiteral hR)) <|
  .orElse (steady_functionCall hn hR) (steady_parenthesized hn hR)

section Slashes

-- texts may stop at a slash outside of brackets, and then what is behind it is not read alike
variable (hslash : ∀ bound, Steady R bound 1 depth depth (.char '/') (.char '/'))

include hslash

omit hn in
theorem steady_slashes : Steady R bound 1 depth depth (.word "//") (.word "//") :=
  have hword : Steady R bound "//".toList.length depth depth (.word "//") (.word "//") :=
    steady_wordOf fun c hc bound => by
      obtain rfl : c = '/' := by simpa using hc
      exact hslash bound
  hword.mono (by decide) (Nat.le_refl _)

theorem steady_slashStep (hR : Twins R) :
    Steady R bound 1 depth depth (slashStep nested) (slashStep nested') :=
  .mono (.map _ (.both
    (.orElse (.map _ (steady_slashes hslash)) (.map _ (hslash bound)))
    (.rest (steady_step hn hR) 1))) (by omega) (Nat.le_refl _)

theorem steady_slashSteps (hR : Twins R) :
    Steady R bound 0 depth depth (slashSteps nested) (slashSteps nested') :=
  .map _ (.many (steady_slashStep hn hslash hR))

theorem steady_absolutePath (hR : Twins R) :
    Steady R bound 0 depth depth (absolutePath nested) (absolutePath nested') := by
  intro s s' hs hs' h
  have htwo := steady_slashes hslash s s' hs hs' h
  unfold absolutePath
  generalize Reader.word "//" s = x at htwo
  generalize Reader.word "//" s' = x' at htwo
  cases htwo with
  | none =>
    exact Agrees.weaken (.map _ (.both (hslash bound)
      (.rest (.both (.optional (steady_step hn hR)) (steady_slashSteps hn hslash hR)) 1)))
      s s' hs hs' h
  | @some a r r' hr hl hl' =>
    have hmore := Agrees.map
      (fun steps : Step × List Step => Expr.absolute (Step.anywhereBelow :: steps.1 :: steps.2))
      (.both (steady_step hn hR) (.rest (steady_slashSteps hn hslash hR) 1)) r r' (by omega)
      (by omega) hr
    exact (hmore.of_rest hl hl').mono (Nat.zero_le _)

theorem steady_relativePath (hR : Twins R) :
    Steady R bound 0 depth depth (relativePath nested) (relativePath nested') :=
  .weaken (.map _ (.both (steady_step hn hR) (.rest (steady_slashSteps hn hslash hR) 1)))

theorem steady_locationPath (hR : Twins R) :
    Steady R bound 0 depth depth (locationPath nested) (locationPath nested') := by
  intro s s' hs hs' h
  have hhead : s.head? = some '/' ↔ s'.head? = some '/' := by
    have hsame := hslash bound s s' hs hs' h
    rw [← isSome_char, ← isSome_char]
    generalize Reader.char '/' s = x at hsame
    generalize Reader.char '/' s' = x' at hsame
    cases hsame <;> simp
  by_cases hone : s.head? = some '/'
  · rw [locationPath_of_slash hone, locationPath_of_slash (hhead.mp hone)]
    exact steady_absolutePath hn hslash hR s s' hs hs' h
  · rw [locationPath_of_no_slash hone, locationPath_of_no_slash (mt hhead.mpr hone)]
    exact steady_relativePath hn hslash hR s s' hs hs' h

/-- A path is steady if what it may start with is. -/
theorem steady_pathFrom (hR : Twins R) {start start' : Reader Expr}
    (hs : Steady R bound 0 depth depth start start') :
    Steady R bound 0 depth depth (pathFrom start nested) (pathFrom start' nested') :=
  .map _ (.both (.orElse (steady_filteredFrom hn hR hs) (steady_locationPath hn hslash hR))
    (steady_slashSteps hn hslash hR))

end Slashes

omit hn in
theorem steady_innerSlash (hR : Twins R) :
    ∀ bound, Steady R bound 1 (depth + 1) (depth + 1) (.char '/') (.char '/') :=
  fun _ => steady_innerChar hR rfl

theorem steady_filtered (hR : Twins R) :
    Steady R bound 0 (depth + 1) (depth + 1) (filtered nested) (filtered nested') :=
  steady_filteredFrom hn hR (steady_primary hn hR)

theorem steady_path (hR : Twins R) :
    Steady R bound 0 (depth + 1) (depth + 1) (path nested) (path nested') :=
  steady_pathFrom hn (steady_innerSlash hR) hR (steady_primary hn hR)

end Nested

theorem steady_leftChain (hR : Twins R) {operand operand' : Reader Expr}
    {operator : Reader BinaryOp}
    (hp : Steady R bound 0 (depth + 1) (depth + 1) operand operand')
    (ho : Steady R bound 1 (depth + 1) (depth + 1) operator operator) :
    Steady R bound 0 (depth + 1) (depth + 1) (leftChain operand operator)
      (leftChain operand' operator) :=
  .map _ (.both hp (.many (.both (hR.spaced ho) (.rest hp 1))))

theorem steady_operatorChar (hR : Twins R) (op : BinaryOp) {c : Char} (hc : isPlain c = true) :
    Steady R bound 1 (depth + 1) (depth + 1) (operatorChar op c) (operatorChar op c) :=
  .map _ (steady_innerChar hR hc)

theorem steady_operatorWord (hR : Twins R) (op : BinaryOp) {text : String}
    (ht : text.toList.all isPlain = true) (hl : 0 < text.toList.length) :
    Steady R bound 1 (depth + 1) (depth + 1) (operatorWord op text) (operatorWord op text) :=
  .map _ (steady_innerWord hR ht hl)

theorem steady_operatorName (hR : Twins R) (op : BinaryOp) {text : String}
    (ht : text.toList.all isPlain = true) (hl : 0 < text.toList.length) :
    Steady R bound 1 (depth + 1) (depth + 1) (operatorName op text) (operatorName op text) :=
  .map _ (steady_wholeWord hR ht hl)

theorem steady_equalityOp (hR : Twins R) :
    Steady R bound 1 (depth + 1) (depth + 1) equalityOp equalityOp :=
  .orElse (steady_operatorChar hR _ rfl) (steady_operatorWord hR _ (by decide) (by decide))

theorem steady_relationalOp (hR : Twins R) :
    Steady R bound 1 (depth + 1) (depth + 1) relationalOp relationalOp :=
  .orElse (steady_operatorWord hR _ (by decide) (by decide)) <|
  .orElse (steady_operatorWord hR _ (by decide) (by decide)) <|
  .orElse (steady_operatorWord hR _ (by decide) (by decide)) <|
  .orElse (steady_operatorWord hR _ (by decide) (by decide)) <|
  .orElse (steady_operatorChar hR _ rfl) <|
  .orElse (steady_operatorWord hR _ (by decide) (by decide)) <|
  .orElse (steady_operatorChar hR _ rfl) (steady_operatorWord hR _ (by decide) (by decide))

theorem steady_additiveOp (hR : Twins R) :
    Steady R bound 1 (depth + 1) (depth + 1) additiveOp additiveOp :=
  .orElse (steady_operatorChar hR _ rfl) (steady_operatorChar hR _ rfl)

theorem steady_multiplicativeOp (hR : Twins R) :
    Steady R bound 1 (depth + 1) (depth + 1) multiplicativeOp multiplicativeOp :=
  .orElse (steady_operatorChar hR _ rfl) <|
  .orElse (steady_operatorName hR _ (by decide) (by decide))
    (steady_operatorName hR _ (by decide) (by decide))

section Levels

variable {nested nested' : Reader Expr}
  (hn : ∀ depth, Steady R (bound - 1) 0 (depth + 1) (depth + 1) nested nested')

include hn

theorem steady_unionExpr (hR : Twins R) :
    Steady R bound 0 (depth + 1) (depth + 1) (unionExpr nested) (unionExpr nested') :=
  steady_leftChain hR (steady_path hn hR) (steady_operatorChar hR _ rfl)

theorem steady_unaryExpr (hR : Twins R) :
    Steady R bound 0 (depth + 1) (depth + 1) (unaryExpr nested) (unaryExpr nested') :=
  .map _ (.both (.optional (hR.spaced (steady_innerChar hR rfl))) (steady_unionExpr hn hR))

theorem steady_multiplicativeExpr (hR : Twins R) :
    Steady R bound 0 (depth + 1) (depth + 1) (multiplicativeExpr nested)
      (multiplicativeExpr nested') :=
  steady_leftChain hR (steady_unaryExpr hn hR) (steady_multiplicativeOp hR)

theorem steady_additiveExpr (hR : Twins R) :
    Steady R bound 0 (depth + 1) (depth + 1) (additiveExpr nested) (additiveExpr nested') :=
  steady_leftChain hR (steady_multiplicativeExpr hn hR) (steady_additiveOp hR)

theorem steady_relationalExpr (hR : Twins R) :
    Steady R bound 0 (depth + 1) (depth + 1) (relationalExpr nested) (relationalExpr nested') :=
  steady_leftChain hR (steady_additiveExpr hn hR) (steady_relationalOp hR)

theorem steady_equalityExpr (hR : Twins R) :
    Steady R bound 0 (depth + 1) (depth + 1) (equalityExpr nested) (equalityExpr nested') :=
  steady_leftChain hR (steady_relationalExpr hn hR) (steady_equalityOp hR)

theorem steady_andExpr (hR : Twins R) :
    Steady R bound 0 (depth + 1) (depth + 1) (andExpr nested) (andExpr nested') :=
  steady_leftChain hR (steady_equalityExpr hn hR)
    (steady_operatorName hR _ (by decide) (by decide))

/-- An expression in brackets is read alike in twin texts if the expressions nested in it are. -/
theorem steady_orExpr (hR : Twins R) :
    Steady R bound 0 (depth + 1) (depth + 1) (orExpr nested) (orExpr nested') :=
  steady_leftChain hR (steady_andExpr hn hR) (steady_operatorName hR _ (by decide) (by decide))

end Levels

theorem steady_expressionUpTo (hR : Twins R) {fuel fuel' : Nat} (hf : bound ≤ fuel)
    (hf' : bound ≤ fuel') (depth : Nat) :
    Steady R bound 0 (depth + 1) (depth + 1) (expressionUpTo fuel) (expressionUpTo fuel') := by
  induction bound generalizing fuel fuel' depth with
  | zero => exact fun s _ hs => absurd hs (Nat.not_lt_zero _)
  | succ bound ih =>
    obtain ⟨fuel, rfl⟩ := Nat.exists_eq_add_of_le' (Nat.le_trans (Nat.le_add_left 1 bound) hf)
    obtain ⟨fuel', rfl⟩ := Nat.exists_eq_add_of_le' (Nat.le_trans (Nat.le_add_left 1 bound) hf')
    rw [expressionUpTo, expressionUpTo]
    exact steady_orExpr (fun depth => ih (Nat.le_of_succ_le_succ hf)
      (Nat.le_of_succ_le_succ hf') depth) hR

theorem eq_of_same_eq {n : Nesting} {taken : Nat} {x x' : Option (α × List Char)}
    (h : Same (fun _ s s' => s = s') n taken s s' x x') : x = x' := by
  cases h with
  | none => rfl
  | some h => rw [h]

/-- More fuel than characters changes nothing. -/
theorem expressionUpTo_eq {fuel : Nat} (hf : s.length < fuel) :
    expressionUpTo fuel s = expression s :=
  eq_of_same_eq (steady_expressionUpTo twins_eq hf (Nat.le_refl (s.length + 1)) 0 s s
    (Nat.lt_succ_self _) (Nat.lt_succ_self _) rfl)

theorem steady_expression (hR : Twins R) (depth : Nat) :
    Steady R bound 0 (depth + 1) (depth + 1) expression expression := by
  intro s s' hs hs' h
  rw [← expressionUpTo_eq hs, ← expressionUpTo_eq hs']
  exact steady_expressionUpTo hR (Nat.le_refl _) (Nat.le_refl _) depth s s' hs hs' h

/-- An expression is what the lowest level of precedence reads, with expressions nested in it. -/
theorem expression_eq : expression = orExpr expression := by
  funext s
  have hnested : ∀ depth, Steady (fun _ s s' => s = s') (s.length + 1 - 1) 0 (depth + 1)
      (depth + 1) (expressionUpTo s.length) expression := by
    rintro depth t _ ht - rfl
    rw [expressionUpTo_eq (show t.length < s.length from ht)]
    exact steady_expression twins_eq depth t t ht ht rfl
  have hsteady : Steady (fun _ s s' => s = s') (s.length + 1) 0 1 1
      (orExpr (expressionUpTo s.length)) (orExpr expression) := steady_orExpr hnested twins_eq
  exact eq_of_same_eq (hsteady s s (Nat.lt_succ_self _) (Nat.lt_succ_self _) rfl)

end MarkupQuery.Query
