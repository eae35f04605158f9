import MarkupQuery.Proofs.Query.Repetition
import Mathlib.Data.List.TakeWhile

namespace MarkupQuery.Query

open MarkupQuery.Text MarkupQuery.Page

/-- A text whose brackets match and whose quotes are closed. -/
inductive Balanced : List Char → Prop
  | nil : Balanced []
  | plain {c : Char} (h : isPlain c = true) : Balanced [c]
  | quoted {q : Char} (hq : q = '\'' ∨ q = '"') {s : List Char} (h : q ∉ s) :
    Balanced (q :: s ++ [q])
  | round {s : List Char} (h : Balanced s) : Balanced ('(' :: s ++ [')'])
  | square {s : List Char} (h : Balanced s) : Balanced ('[' :: s ++ [']'])
  | append {s t : List Char} (hs : Balanced s) (ht : Balanced t) : Balanced (s ++ t)

variable {α β : Type} {p : Reader α} {q : Reader β} {s r : List Char}

theorem Balanced.of_plain (h : ∀ c ∈ s, isPlain c = true) : Balanced s := by
  induction s with
  | nil => exact .nil
  | cons c s ih =>
    obtain ⟨hc, hs⟩ := List.forall_mem_cons.mp h
    exact .append (.plain hc) (ih hs)

def Balances (p : Reader α) : Prop :=
  ∀ s a r, p s = some (a, r) → ∃ c, s = c ++ r ∧ Balanced c

namespace Balances

theorem map (f : α → β) (h : Balances p) : Balances (.map f p) := by
  intro s b r hread
  obtain ⟨a, ha, -⟩ := map_eq_some.mp hread
  exact h s a r ha

theorem orElse {q : Reader α} (hp : Balances p) (hq : Balances q) : Balances (.orElse p q) := by
  intro s a r hread
  unfold Reader.orElse at hread
  split at hread
  · rename_i found hfound
    exact hp s a r (hfound.trans hread)
  · exact hq s a r hread

theorem both (hp : Balances p) (hq : Balances q) : Balances (.both p q) := by
  rintro s ⟨a, b⟩ r hread
  obtain ⟨t, ha, hb⟩ := both_eq_some.mp hread
  obtain ⟨c, rfl, hc⟩ := hp s a t ha
  obtain ⟨d, rfl, hd⟩ := hq t b r hb
  exact ⟨c ++ d, (List.append_assoc c d r).symm, hc.append hd⟩

end Balances

theorem isPlain_of_isSpace {c : Char} (hc : isSpace c = true) : isPlain c = true := by
  simp only [isSpace, Bool.or_eq_true, beq_iff_eq] at hc
  rcases hc with ((rfl | rfl) | rfl) | rfl <;> decide

theorem isPlain_of_isNameChar {c : Char} (hc : isNameChar c = true) : isPlain c = true := by
  have hne : ∀ d, isNameChar d = false → c ≠ d := by
    rintro d hd rfl
    simp [hc] at hd
  simp [isPlain, hne '\'' (by decide), hne '"' (by decide), hne '[' (by decide),
    hne '(' (by decide), hne ']' (by decide), hne ')' (by decide)]

/-- Spaces in front of a text, and the text behind them. -/
theorem exists_spaces (s : List Char) :
    ∃ w, s = w ++ skipSpace s ∧ (∀ c ∈ w, isSpace c = true) :=
  ⟨s.takeWhile isSpace, List.takeWhile_append_dropWhile.symm, fun _ hc => List.mem_takeWhile_imp hc⟩

theorem Balanced.spaces (h : ∀ c ∈ s, isSpace c = true) : Balanced s :=
  .of_plain fun c hc => isPlain_of_isSpace (h c hc)

namespace Balances

theorem spaced (h : Balances p) : Balances (.spaced p) := by
  intro s a r hread
  obtain ⟨t, ha, rfl⟩ := spaced_eq_some.mp hread
  obtain ⟨c, hc, hbalanced⟩ := h _ a t ha
  obtain ⟨w, hw, hspaces⟩ := exists_spaces s
  obtain ⟨w', hw', hspaces'⟩ := exists_spaces t
  refine ⟨w ++ c ++ w', ?_, ((Balanced.spaces hspaces).append hbalanced).append (.spaces hspaces')⟩
  rw [List.append_assoc, ← hw', List.append_assoc, ← hc]
  exact hw

theorem optional (h : Balances p) : Balances (.optional p) := by
  intro s a r hread
  unfold Reader.optional at hread
  split at hread
  · rename_i b t hb
    obtain ⟨-, rfl⟩ := Prod.mk.inj (Option.some.inj hread)
    exact h s b t hb
  · obtain ⟨-, rfl⟩ := Prod.mk.inj (Option.some.inj hread)
    exact ⟨[], rfl, .nil⟩

theorem manyUpTo (h : Balances p) (fuel : Nat) (s : List Char) :
    ∃ c, s = c ++ (Reader.manyUpTo p fuel s).2 ∧ Balanced c := by
  induction fuel generalizing s with
  | zero => exact ⟨[], rfl, .nil⟩
  | succ fuel ih =>
    rw [Reader.manyUpTo]
    split
    · exact ⟨[], rfl, .nil⟩
    · rename_i a t ha
      obtain ⟨c, rfl, hc⟩ := h s a t ha
      obtain ⟨d, hd, hbalanced⟩ := ih t
      refine ⟨c ++ d, ?_, hc.append hbalanced⟩
      rw [List.append_assoc, ← hd]

theorem many (h : Balances p) : Balances (.many p) := by
  intro s as r hread
  obtain ⟨-, rfl⟩ := Prod.mk.inj (Option.some.inj hread)
  exact h.manyUpTo _ s

theorem separated {separator : Reader Unit} (hs : Balances separator) (h : Balances p) :
    Balances (.separated separator p) := by
  intro s as r hread
  unfold Reader.separated at hread
  split at hread
  · obtain ⟨-, rfl⟩ := Prod.mk.inj (Option.some.inj hread)
    exact ⟨[], rfl, .nil⟩
  · rename_i first t hfirst
    obtain ⟨⟨more, u⟩, hmore, he⟩ := Option.map_eq_some_iff.mp hread
    obtain ⟨-, rfl⟩ := Prod.mk.inj he
    obtain ⟨c, rfl, hc⟩ := h s first t hfirst
    obtain ⟨d, rfl, hd⟩ := ((hs.both h).map Prod.snd).many t more u hmore
    exact ⟨c ++ d, (List.append_assoc c d u).symm, hc.append hd⟩

/-- Brackets around what a reader takes. -/
theorem bracketed {opening closing : Char}
    (hb : ∀ {s : List Char}, Balanced s → Balanced (opening :: s ++ [closing])) (h : Balances p) :
    Balances (.both (.spaced (.char opening)) (.both p (.spaced (.char closing)))) := by
  rintro s ⟨_, a, _⟩ r hread
  obtain ⟨t, hopen, hrest⟩ := both_eq_some.mp hread
  obtain ⟨u, ha, hclose⟩ := both_eq_some.mp hrest
  obtain ⟨t', hchar, rfl⟩ := spaced_eq_some.mp hopen
  obtain ⟨u', hchar', rfl⟩ := spaced_eq_some.mp hclose
  obtain ⟨c, hc, hbalanced⟩ := h _ a u ha
  obtain ⟨before, hbefore, hs⟩ := exists_spaces s
  obtain ⟨left, hleft, ht⟩ := exists_spaces t'
  obtain ⟨right, hright, hu⟩ := exists_spaces u
  obtain ⟨after, hafter, hu'⟩ := exists_spaces u'
  have hinner : Balanced (left ++ c ++ right) :=
    ((Balanced.spaces ht).append hbalanced).append (.spaces hu)
  refine ⟨before ++ (opening :: (left ++ c ++ right) ++ [closing]) ++ after, ?_,
    ((Balanced.spaces hs).append (hb hinner)).append (.spaces hu')⟩
  have hwhole : t' = left ++ (c ++ (right ++ closing :: (after ++ skipSpace u'))) := by
    rw [← hafter, ← char_eq_some.mp hchar', ← hright, ← hc, ← hleft]
  rw [hbefore, char_eq_some.mp hchar, hwhole]
  simp

end Balances

theorem balances_plain {c : Char} (hc : isPlain c = true) : Balances (.char c) := by
  intro s _ r hread
  exact ⟨[c], char_eq_some.mp hread, .plain hc⟩

theorem balances_word {text : String} (ht : text.toList.all isPlain = true) :
    Balances (.word text) := by
  intro s _ r hread
  exact ⟨text.toList, eq_append_of_word hread, .of_plain (List.all_eq_true.mp ht)⟩

theorem balances_wholeWord {text : String} (ht : text.toList.all isPlain = true) :
    Balances (wholeWord text) := by
  intro s a r hread
  unfold wholeWord at hread
  split at hread
  · rename_i c rest hword
    split at hread
    · cases hread
    · cases hread
      exact balances_word ht s _ _ hword
  · exact balances_word ht s a r hread

theorem balances_plainName : Balances plainName := by
  intro s name r hread
  cases s with
  | nil => cases hread
  | cons c s =>
    rw [plainName] at hread
    split at hread
    · rename_i hc
      cases hread
      refine ⟨c :: s.takeWhile isNameChar, ?_, .of_plain fun x hx => ?_⟩
      · rw [List.cons_append, List.takeWhile_append_dropWhile]
      · rcases List.mem_cons.mp hx with rfl | hx
        · exact isPlain_of_isNameChar (isNameChar_of_isNameStart hc)
        · exact isPlain_of_isNameChar (List.mem_takeWhile_imp hx)
    · cases hread

theorem balances_qualifiedName : Balances qualifiedName := by
  intro s name r hread
  simp only [qualifiedName, Option.bind_eq_bind, Option.bind_eq_some_iff, Prod.exists] at hread
  obtain ⟨first, rest, hfirst, hread⟩ := hread
  obtain ⟨c, rfl, hc⟩ := balances_plainName s first rest hfirst
  split at hread
  · rename_i more
    split at hread
    · rename_i second after hsecond
      cases hread
      obtain ⟨d, rfl, hd⟩ := balances_plainName more second _ hsecond
      exact ⟨c ++ ([':'] ++ d), by simp, hc.append ((Balanced.plain rfl).append hd)⟩
    · cases hread
      exact ⟨c, rfl, hc⟩
  · cases hread
    exact ⟨c, rfl, hc⟩

theorem balances_oneOf {entries : List (α × String)} (he : areWords entries = true) :
    Balances fun s => entries.findSome? fun (a, name) => Reader.map (fun _ => a) (.word name) s := by
  intro s a r hread
  obtain ⟨⟨b, name⟩, hmem, hword⟩ := List.exists_of_findSome?_eq_some hread
  refine (balances_word ?_).map (fun _ => b) s a r hword
  have hboth := List.all_eq_true.mp he _ hmem
  refine List.all_eq_true.mpr fun c hc => ?_
  exact (Bool.and_eq_true_iff.mp (List.all_eq_true.mp hboth c hc)).1

theorem balances_stringLiteral : Balances stringLiteral := by
  intro s value r hread
  cases s with
  | nil => cases hread
  | cons q s =>
    rw [stringLiteral] at hread
    split at hread
    · rename_i hq
      split at hread
      · cases hread
      · rename_i c rest hrest
        cases hread
        obtain rfl : c = q := by
          have hhead := List.head?_dropWhile_not (fun x => x != q) s
          rw [hrest] at hhead
          simpa using hhead
        refine ⟨c :: s.takeWhile (· != c) ++ [c], ?_, .quoted hq fun hmem => ?_⟩
        · have hsplit := List.takeWhile_append_dropWhile (p := (· != c)) (l := s)
          rw [hrest] at hsplit
          rw [List.append_assoc, List.cons_append]
          exact congrArg (c :: ·) hsplit.symm
        · simpa using List.mem_takeWhile_imp hmem
    · cases hread

theorem isPlain_of_isDigit {c : Char} (hc : c.isDigit = true) : isPlain c = true :=
  isPlain_of_isNameChar (isNameChar_of_isDigit hc)

theorem balances_numeral : Balances Number.numeral? := by
  intro s x r hread
  have hdigits : ∀ {t : List Char}, (∀ c ∈ t, c.isDigit = true) → Balanced t := fun ht =>
    .of_plain fun c hc => isPlain_of_isDigit (ht c hc)
  obtain ⟨y, hread⟩ := Number.exists_numeral_iff.mp ⟨x, hread⟩
  rcases Number.digits_cases s with ⟨whole, fraction, rest, rfl, hw, hf, hrest⟩ |
    ⟨whole, rest, rfl, hw, hrest⟩
  · rw [Number.wholeNumeral_fraction hw hf hrest] at hread
    split at hread <;> cases hread
    exact ⟨whole ++ '.' :: fraction, by simp,
      (hdigits hw).append (.append (.plain (c := '.') rfl) (hdigits hf))⟩
  · rw [Number.wholeNumeral_whole hw hrest] at hread
    split at hread <;> cases hread
    exact ⟨whole, rfl, hdigits hw⟩

theorem balances_nodeTest : Balances nodeTest := by
  have htypes : Balances nodeType := balances_oneOf (show areWords nodeTypeNames = true by decide)
  have htype : Balances typeTest := by
    rintro s test r hread
    obtain ⟨⟨kind, _, _⟩, hboth, -⟩ := map_eq_some.mp hread
    obtain ⟨t, hkind, hpair⟩ := both_eq_some.mp hboth
    obtain ⟨u, hopen, hclose⟩ := both_eq_some.mp hpair
    have hempty : Balances (.both (.spaced (.char '('))
        (.both (fun s => some ((), s)) (.spaced (.char ')')))) :=
      .bracketed .round fun s _ r hr => by
        cases hr
        exact ⟨[], rfl, .nil⟩
    obtain ⟨c, rfl, hc⟩ := htypes s kind t hkind
    obtain ⟨d, rfl, hd⟩ := hempty t _ r
      (both_eq_some.mpr ⟨u, hopen, both_eq_some.mpr ⟨u, rfl, hclose⟩⟩)
    exact ⟨c ++ d, (List.append_assoc c d r).symm, hc.append hd⟩
  exact .orElse (.map _ (balances_plain rfl)) <|
    .orElse htype <|
    .orElse (.map _ (.both balances_plainName (balances_word (by decide)))) <|
    .map _ balances_qualifiedName

theorem balances_stepHead : Balances stepHead :=
  have haxis : Balances axis := .map _ (.both (balances_oneOf (show areWords axisNames = true by decide))
    (balances_word (by decide)))
  .orElse (.map _ (balances_word (by decide))) <|
  .orElse (.map _ (balances_word (by decide))) <|
  .orElse (.map _ (.both (balances_plain rfl) balances_nodeTest)) <|
  .map _ (.both (.optional haxis) balances_nodeTest)

theorem balances_relationalOp : Balances relationalOp := by
  have hword : ∀ op (text : String), text.toList.all isPlain = true →
      Balances (operatorWord op text) := fun op text ht => .map _ (balances_word ht)
  have hchar : ∀ op c, isPlain c = true → Balances (operatorChar op c) := fun op c hc =>
    .map _ (balances_plain hc)
  exact .orElse (hword _ _ (by decide)) <| .orElse (hword _ _ (by decide)) <|
    .orElse (hword _ _ (by decide)) <| .orElse (hword _ _ (by decide)) <|
    .orElse (hchar _ _ rfl) <| .orElse (hword _ _ (by decide)) <|
    .orElse (hchar _ _ rfl) (hword _ _ (by decide))

section Nested

variable {nested : Reader Expr} (hn : Balances nested)
include hn

theorem balances_step : Balances (step nested) :=
  .map _ (.both balances_stepHead (.many (.map _ (.bracketed .square hn))))

theorem balances_slashSteps : Balances (slashSteps nested) :=
  .map _ (.many (.map _ (.both
    (.orElse (.map _ (balances_word (by decide))) (.map _ (balances_plain rfl)))
    (balances_step hn))))

theorem balances_absolutePath : Balances (absolutePath nested) := by
  intro s e r hread
  unfold absolutePath at hread
  split at hread
  · rename_i t hword
    obtain ⟨c, rfl, hc⟩ := balances_word (show "//".toList.all isPlain = true by decide) s _ t hword
    obtain ⟨d, rfl, hd⟩ := ((balances_step hn).both (balances_slashSteps hn)).map _ t e r hread
    exact ⟨c ++ d, (List.append_assoc c d r).symm, hc.append hd⟩
  · exact ((balances_plain rfl).both
      ((balances_step hn).optional.both (balances_slashSteps hn))).map _ s e r hread

theorem balances_locationPath : Balances (locationPath nested) := by
  intro s e r hread
  unfold locationPath at hread
  split at hread
  · exact balances_absolutePath hn _ e r hread
  · exact ((balances_step hn).both (balances_slashSteps hn)).map _ s e r hread

theorem balances_functionCall : Balances (functionCall nested) := by
  intro s e r hread
  simp only [functionCall, Option.bind_eq_bind, Option.bind_eq_some_iff] at hread
  obtain ⟨⟨name, t⟩, hname, ⟨_, u⟩, hopen, hread⟩ := hread
  split at hread
  · cases hread
  simp only [Option.bind_eq_some_iff, Option.pure_def, Option.some.injEq, Prod.mk.injEq] at hread
  obtain ⟨⟨arguments, v⟩, harguments, ⟨_, w⟩, hclose, -, rfl⟩ := hread
  obtain ⟨c, rfl, hc⟩ := balances_qualifiedName s name t hname
  obtain ⟨spaces, ht, hspaces⟩ := exists_spaces t
  obtain ⟨d, rfl, hd⟩ := (Balances.separated (.spaced (balances_plain rfl)) hn) u arguments v
    harguments
  refine ⟨c ++ (spaces ++ ('(' :: d ++ [')'])), ?_,
    hc.append ((Balanced.spaces hspaces).append hd.round)⟩
  have hv : v = ')' :: w := char_eq_some.mp hclose
  rw [ht, char_eq_some.mp hopen, hv]
  simp

theorem balances_path : Balances (path nested) :=
  have hprimary : Balances (primary nested) := .spaced <|
    .orElse (.map _ balances_numeral) <| .orElse (.map _ balances_stringLiteral) <|
    .orElse (balances_functionCall hn) (.map _ (.bracketed .round hn))
  have hfiltered : Balances (filtered nested) :=
    .map _ (.both hprimary (.many (.map _ (.bracketed .square hn))))
  .map _ (.both (.orElse hfiltered (balances_locationPath hn)) (balances_slashSteps hn))

theorem balances_orExpr : Balances (orExpr nested) := by
  have hchain : ∀ {operand : Reader Expr} {operator : Reader BinaryOp}, Balances operand →
      Balances operator → Balances (leftChain operand operator) := fun hp ho =>
    .map _ (.both hp (.many (.both (.spaced ho) hp)))
  have hword : ∀ op (text : String), text.toList.all isPlain = true →
      Balances (operatorWord op text) := fun op text ht => .map _ (balances_word ht)
  have hname : ∀ op (text : String), text.toList.all isPlain = true →
      Balances (operatorName op text) := fun op text ht => .map _ (balances_wholeWord ht)
  have hchar : ∀ op c, isPlain c = true → Balances (operatorChar op c) := fun op c hc =>
    .map _ (balances_plain hc)
  have hunary : Balances (unaryExpr nested) :=
    .map _ (.both (.optional (.spaced (balances_plain rfl))) (hchain (balances_path hn) (hchar _ _ rfl)))
  have hadditive : Balances (additiveExpr nested) :=
    hchain (hchain hunary (.orElse (hchar _ _ rfl) (.orElse (hname _ _ (by decide))
      (hname _ _ (by decide))))) (.orElse (hchar _ _ rfl) (hchar _ _ rfl))
  have hequality : Balances (equalityExpr nested) :=
    hchain (hchain hadditive balances_relationalOp)
      (.orElse (hchar _ _ rfl) (hword _ _ (by decide)))
  exact hchain (hchain hequality (hname _ _ (by decide))) (hname _ _ (by decide))

end Nested

theorem balances_expressionUpTo (depth : Nat) : Balances (expressionUpTo depth) := by
  induction depth with
  | zero => intro s e r hread; cases hread
  | succ depth ih => exact balances_orExpr ih

/-- The text of an expression is balanced. -/
theorem balances_expression : Balances expression := fun s => balances_expressionUpTo _ s

section Counting

variable {c t : List Char} {n : Nesting} {depth : Nat}

/-- Outside of quotes, a balanced text leads back to where it began. -/
theorem Balanced.foldl_after (h : Balanced c) (depth : Nat) :
    c.foldl Nesting.after (inside depth) = inside depth := by
  induction h generalizing depth with
  | nil => rfl
  | plain hc => exact after_of_isPlain hc depth
  | append _ _ ihs iht => rw [List.foldl_append, ihs, iht]
  | @round s _ ih =>
    have hopen : (inside depth).after '(' = inside (depth + 1) := rfl
    have hclose : (inside (depth + 1)).after ')' = inside depth := rfl
    rw [List.cons_append, List.foldl_cons, hopen, List.foldl_append, ih, List.foldl_cons, hclose]
    rfl
  | @square s _ ih =>
    have hopen : (inside depth).after '[' = inside (depth + 1) := rfl
    have hclose : (inside (depth + 1)).after ']' = inside depth := rfl
    rw [List.cons_append, List.foldl_cons, hopen, List.foldl_append, ih, List.foldl_cons, hclose]
    rfl
  | @quoted q hq s hs =>
    have hopen : (inside depth).after q = ⟨depth, some q⟩ := by rcases hq with rfl | rfl <;> rfl
    have hinner : s.foldl Nesting.after ⟨depth, some q⟩ = ⟨depth, some q⟩ := by
      clear hopen
      induction s with
      | nil => rfl
      | cons x s ih =>
        have hx : x ≠ q := fun he => hs (he ▸ List.mem_cons_self)
        rw [List.foldl_cons, Nesting.after]
        simpa [hx] using ih fun hmem => hs (List.mem_cons_of_mem _ hmem)
    rw [List.cons_append, List.foldl_cons, hopen, List.foldl_append, hinner]
    simp [Nesting.after]

theorem upToClose_quoted {q : Char} (hc : q ∉ c) (depth : Nat) (t : List Char) :
    upToClose depth (some q) (c ++ q :: t) =
      (upToClose depth none t).map fun (inner, after) => (c ++ q :: inner, after) := by
  induction c with
  | nil =>
    rw [List.nil_append, upToClose]
    simp
  | cons x c ih =>
    have hx : x ≠ q := fun he => hc (he ▸ List.mem_cons_self)
    rw [List.cons_append, upToClose]
    simp only [beq_iff_eq, hx, if_false, ih fun hmem => hc (List.mem_cons_of_mem _ hmem),
      Option.map_map]
    rfl

/-- Outside of quotes, a balanced text holds no parenthesis that closes one before it. -/
theorem Balanced.upToClose_append (h : Balanced c) (depth : Nat) (t : List Char) :
    upToClose depth none (c ++ t) =
      (upToClose depth none t).map fun (inner, after) => (c ++ inner, after) := by
  induction h generalizing depth t with
  | nil => simp
  | @plain x hx =>
    simp only [isPlain, List.contains_eq_mem, List.mem_cons, List.not_mem_nil, or_false,
      Bool.not_eq_true', decide_eq_false_iff_not, not_or] at hx
    obtain ⟨hsingle, hdouble, -, hopen, -, hclose⟩ := hx
    simp [upToClose, hsingle, hdouble, hopen, hclose]
  | @append s u _ _ ihs ihu =>
    rw [List.append_assoc, ihs, ihu, Option.map_map]
    congr 1
    funext found
    simp
  | @round s _ ih =>
    simp [ih, upToClose, Function.comp_def]
  | @square s _ ih =>
    simp [ih, upToClose, Function.comp_def]
  | @quoted q hq s hs =>
    have hquote : (q == '\'' || q == '"') = true := by simpa using hq
    simp [upToClose, hquote, upToClose_quoted hs, Function.comp_def]

end Counting

end MarkupQuery.Query
