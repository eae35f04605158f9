import MarkupQuery.Proofs.Query.Levels

namespace MarkupQuery.Query

open MarkupQuery.Text

variable {l : Nat} {s r rest text : List Char} {texts : List (List Char)} {e last : Expr}
  {es : List Expr}

theorem Stands.of_primary {x : Char} {cs : List Char} (hx : isBlank x = false) (hsign : x ≠ '-')
    (hlast : ∀ y ∈ (x :: cs).getLast?, isBlank y = false) : Stands l (x :: cs) where
  nonempty := by simp
  noBlank := by simpa using hx
  noSign _ := by simpa using hsign
  trimmed := hlast

theorem Stands.reads_primary (h : Stands 10 text)
    (hread : ∀ rest, Ends 10 rest → primary expression (text ++ rest) =
      some (if rest = [] then last else e, Text.skipSpace rest)) : Reads 10 text e last :=
  { h with reads := fun rest hrest => ⟨_, .inr rfl, hread rest hrest⟩ }

theorem reads_quotedText {value : List Char} (h : '\'' ∉ value ∨ '"' ∉ value) :
    Reads 10 (quotedText value) (.literal (String.ofList value))
      (.literal (String.ofList value)) := by
  have hquote : ∀ q : Char, q = '\'' ∨ q = '"' → q ∉ value →
      Reads 10 (q :: value ++ [q]) (.literal (String.ofList value))
        (.literal (String.ofList value)) := by
    intro q hq hv
    have hblank : isBlank q = false := by rcases hq with rfl | rfl <;> rfl
    have hstands : Stands 10 (q :: (value ++ [q])) := by
      refine .of_primary hblank (by rcases hq with rfl | rfl <;> decide) ?_
      rw [← List.cons_append, List.getLast?_concat]
      simpa using hblank
    refine hstands.reads_primary fun rest _ => ?_
    rw [ite_self]
    exact primary_quoted hq hv rest
  unfold quotedText
  by_cases hmem : '\'' ∈ value
  · rw [if_pos hmem]
    exact hquote '"' (.inr rfl) (h.resolve_left (not_not.mpr hmem))
  · rw [if_neg hmem]
    exact hquote '\'' (.inl rfl) hmem

section Numeral

variable (n : Numeral)

theorem Numeral.text_chars : ∀ c ∈ n.text, c.isDigit = true ∨ c = '.' := by
  intro c hc
  rcases List.mem_append.mp hc with hc | hc
  · exact .inl (n.whole_digits c hc)
  · split at hc
    · cases hc
    · rcases List.mem_cons.mp hc with rfl | hc
      · exact .inr rfl
      · exact .inl (n.fraction_digits c hc)

theorem Numeral.text_ne_nil : n.text ≠ [] := by
  intro h
  obtain ⟨hwhole, hfraction⟩ := List.append_eq_nil_iff.mp h
  split at hfraction
  · rcases n.nonempty with hne | hne <;> contradiction
  · cases hfraction

/-- A numeral is read up to what follows it. If nothing does, a fraction behind other digits does
not count. -/
theorem Numeral.read (hdigit : ∀ c ∈ rest.head?, c.isDigit = false) (hpoint : rest.head? ≠ some '.') :
    Number.numeral? (n.text ++ rest) =
      some (if rest = [] then n.lastValue else n.value, rest) := by
  by_cases hfraction : n.fraction = []
  · have hwhole : n.whole ≠ [] := n.nonempty.resolve_right (not_not.mpr hfraction)
    have hends : ∀ c ∈ rest.head?, c.isDigit = false ∧ c ≠ '.' := fun c hc =>
      ⟨hdigit c hc, by rintro rfl; exact hpoint hc⟩
    have htext : n.text = n.whole := by simp [Numeral.text, hfraction]
    rw [htext, Number.numeral_whole n.whole_digits hends]
    simp [Numeral.lastValue, Numeral.isMixed, Numeral.value, hfraction, hwhole]
  · have htext : n.text ++ rest = n.whole ++ ('.' :: (n.fraction ++ rest)) := by
      simp [Numeral.text, hfraction]
    rw [htext]
    by_cases hend : rest = []
    · -- only digits in front of the point make the end of the query matter
      rw [hend, List.append_nil, Number.numeral_fraction_end n.whole_digits n.fraction_digits]
      by_cases hwhole : n.whole = [] <;>
        simp [Numeral.lastValue, Numeral.isMixed, Numeral.value, hwhole, hfraction]
    · rw [Number.numeral_fraction n.whole_digits n.fraction_digits hdigit hend]
      simp [Numeral.value, hfraction, hend]

end Numeral

theorem Ends.head_not_digit (h : Ends l rest) : ∀ c ∈ rest.head?, c.isDigit = false ∧ c ≠ '.' := by
  cases h with
  | nil => simp
  | close h r => rcases h with rfl | rfl | rfl <;> simp [Char.isDigit]
  | operator op h r => simp [Char.isDigit]
  | slash h r => simp [Char.isDigit]
  | bracket h r => simp [Char.isDigit]

theorem reads_numeral (n : Numeral) : Reads 10 n.text (.number n.value) (.number n.lastValue) := by
  have hname : ∀ c ∈ n.text, isNameChar c = true := by
    intro c hc
    rcases n.text_chars c hc with hdigit | rfl
    · exact isNameChar_of_isDigit hdigit
    · decide
  have hblank : ∀ c ∈ n.text, isBlank c = false := fun c hc => isBlank_of_isNameChar (hname c hc)
  have hstands : Stands 10 n.text := by
    refine ⟨n.text_ne_nil, fun c hc => hblank c (List.mem_of_head? hc), fun _ hsign => ?_,
      fun c hc => hblank c (List.mem_of_getLast? hc)⟩
    rcases n.text_chars '-' (List.mem_of_head? hsign) with h | h
    · exact absurd h (by decide)
    · exact absurd h (by decide)
  refine hstands.reads_primary fun rest hrest => ?_
  have hread : Number.numeral? (n.text ++ rest) =
      some (if rest = [] then n.lastValue else n.value, rest) :=
    n.read (fun c hc => (hrest.head_not_digit c hc).1)
      fun hpoint => (hrest.head_not_digit _ hpoint).2 rfl
  simp only [primary, Reader.spaced, hstands.skipSpace, Reader.orElse, Reader.map, hread,
    Option.map_some]
  split <;> rfl

/-- A text at the lowest level is an expression. -/
theorem Reads.expression_eq_some (h : Reads 0 text e last) : expression text = some (last, []) := by
  obtain ⟨t, ht, hread⟩ := h.reads [] .nil
  obtain rfl : t = [] := by rcases ht with rfl | rfl <;> rfl
  rw [List.append_nil] at hread
  rw [expression_eq]
  exact hread

/-- What a query is parsed as that is nothing but a text at the lowest level. -/
theorem Reads.parse (h : Reads 0 text e last) : Query.parse (String.ofList text) = .ok last := by
  have htrim : trim text = text := by
    rw [trim, trimStart_of_head h.noBlank, trimEnd_of_last h.trimmed]
  rw [parse_eq_ok, String.toList_ofList, htrim]
  exact h.expression_eq_some

theorem Reads.item (h : Reads 0 text e last) : Item text e where
  skipSpace := h.skipSpace
  reads := by
    intro c r hc
    obtain ⟨t, ht, hread⟩ := h.reads (c :: r) (.close hc r)
    have hexpression : expression (text ++ c :: r) = some (e, t) := by
      rw [expression_eq]
      exact hread
    rcases ht with rfl | rfl
    · exact hexpression
    · rwa [hc.skipSpace] at hexpression

/-- Between parentheses, a text of any level is one of the highest. -/
theorem Reads.parenthesized (h : Reads 0 text e last) : Reads 10 ('(' :: text ++ [')']) e e := by
  have hstands : Stands 10 ('(' :: (text ++ [')'])) := by
    refine .of_primary rfl (by decide) ?_
    rw [← List.cons_append, List.getLast?_concat]
    simp
    rfl
  refine hstands.reads_primary fun rest _ => ?_
  have hopen : Reader.spaced (.char '(') ('(' :: (text ++ ')' :: rest)) =
      some ((), text ++ ')' :: rest) := spaced_eq_some.mpr ⟨_, rfl, h.skipSpace _⟩
  have hclose : Reader.spaced (.char ')') (')' :: rest) = some ((), Text.skipSpace rest) := rfl
  have hread : Query.parenthesized expression ('(' :: (text ++ ')' :: rest)) =
      some (e, Text.skipSpace rest) :=
    map_eq_some.mpr ⟨((), e, ()), both_eq_some.mpr ⟨_, hopen, both_eq_some.mpr
      ⟨_, h.item.reads ')' rest (.inr (.inl rfl)), hclose⟩⟩, rfl⟩
  have hskip : Text.skipSpace ('(' :: (text ++ ')' :: rest)) = '(' :: (text ++ ')' :: rest) := rfl
  have hcall : functionCall expression ('(' :: (text ++ ')' :: rest)) = none := by
    have hplain : plainName ('(' :: (text ++ ')' :: rest)) = none := rfl
    simp [functionCall, qualifiedName_of_none hplain]
  have hnumeral : Number.numeral? ('(' :: (text ++ ')' :: rest)) = none := rfl
  have hliteral : stringLiteral ('(' :: (text ++ ')' :: rest)) = none := rfl
  rw [ite_self, List.cons_append, List.append_assoc, List.singleton_append]
  simp [primary, Reader.spaced, Reader.orElse, Reader.map, hskip, hnumeral, hliteral, hcall, hread,
    skipSpace_skipSpace]

/-- In parentheses or without, as the level requires it. -/
theorem Reads.grouped {own : Nat} (h : Reads own text e last) (hown : own ≤ 10) (hl : l ≤ 10) :
    Reads l (Query.grouped l own text) e (if own < l then e else last) := by
  unfold Query.grouped
  split
  · exact ((h.lower (Nat.zero_le _) hown).parenthesized).lower hl (Nat.le_refl _)
  · exact h.lower (by omega) hown

theorem qualifiedName_joinName {qualifier localName : String} (hq : IsPlain qualifier)
    (hl : IsPlain localName) (s : List Char) :
    qualifiedName ((joinName (some qualifier, localName)).toList ++ '(' :: s) =
      some ((some qualifier, localName), '(' :: s) := by
  have htext : (joinName (some qualifier, localName)).toList ++ '(' :: s =
      qualifier.toList ++ ':' :: (localName.toList ++ '(' :: s) := by
    simp [joinName]
  rw [htext, qualifiedName_of_colon (plainName_append hq (by simp; decide)),
    plainName_append hl (by simp; decide)]
  rfl

/-- A call of a function with the arguments that are read off the texts. -/
theorem reads_callText {name : String} (hname : IsFunctionName name)
    (h : List.Forall₂ Item texts es) : Reads 10 (callText name texts) (.call name es) (.call name es) := by
  have hcall : ∀ r, functionCall expression (callText name texts ++ r) = some (.call name es, r) := by
    intro r
    rcases hname with ⟨hplain, htype⟩ | ⟨qualifier, localName, hq, hl, rfl⟩
    · exact functionCall_of_items (qualifiedName_call hplain) (by simp [isTypeName, htype]) h r
    · exact functionCall_of_items (qualifiedName_joinName hq hl) rfl h r
  -- a call is told from the other primary expressions by its first character
  obtain ⟨x, cs, hx, hstart⟩ : ∃ x cs, name.toList = x :: cs ∧ isNameStart x = true := by
    rcases hname with ⟨hplain, -⟩ | ⟨qualifier, localName, hq, -, rfl⟩
    · obtain ⟨x, cs, hx, hstart, -⟩ := hplain.eq_cons
      exact ⟨x, cs, hx, hstart⟩
    · obtain ⟨x, cs, hx, hstart, -⟩ := hq.eq_cons
      exact ⟨x, cs ++ ':' :: localName.toList, by simp [joinName, hx], hstart⟩
  have htext : callText name texts = x :: (cs ++ '(' :: joinWith [',', ' '] texts ++ [')']) := by
    simp [callText, hx]
  have hblank : isBlank x = false := isBlank_of_isNameChar (isNameChar_of_isNameStart hstart)
  have hsign : x ≠ '-' := by
    rintro rfl
    exact absurd hstart (by decide)
  rw [htext] at hcall ⊢
  have hstands : Stands 10 (x :: (cs ++ '(' :: joinWith [',', ' '] texts ++ [')'])) := by
    refine .of_primary hblank hsign ?_
    rw [← List.cons_append, List.getLast?_concat]
    simp
    rfl
  refine hstands.reads_primary fun rest _ => ?_
  rw [ite_self]
  exact primary_of_functionCall hstart (hcall rest)

theorem Reads.negate (h : Reads 7 text e last) :
    Reads 6 ('-' :: text) (.negate e) (.negate last) where
  nonempty := by simp
  noBlank := by simp; rfl
  noSign := by omega
  trimmed := by
    rw [List.getLast?_cons_of_ne_nil h.nonempty]
    exact h.trimmed
  reads := by
    intro rest hrest
    obtain ⟨t, ht, hread⟩ := h.reads rest (hrest.mono (by omega))
    have hsign : Reader.optional (.spaced (.char '-')) ('-' :: (text ++ rest)) =
        some (some (), text ++ rest) := by
      have hchar : Reader.spaced (.char '-') ('-' :: (text ++ rest)) = some ((), text ++ rest) :=
        spaced_eq_some.mpr ⟨_, rfl, h.skipSpace rest⟩
      simp [Reader.optional, hchar]
    have hunary : unaryExpr expression ('-' :: (text ++ rest)) =
        some (.negate (if rest = [] then last else e), t) :=
      map_eq_some.mpr ⟨(some (), _), both_eq_some.mpr ⟨_, hsign, hread⟩, rfl⟩
    refine ⟨t, ht, ?_⟩
    rw [← apply_ite Expr.negate]
    exact hunary

theorem trimmed_predicatesText (texts : List (List Char)) :
    ∀ x ∈ (predicatesText texts).getLast?, isBlank x = false := by
  rcases List.eq_nil_or_concat texts with rfl | ⟨texts, text, rfl⟩
  · simp [predicatesText]
  · have htext : predicatesText (texts.concat text) =
        (predicatesText texts ++ '[' :: text) ++ [']'] := by
      simp [predicatesText, List.flatMap_append]
    rw [htext, List.getLast?_concat]
    simp
    rfl

/-- Predicates behind a text filter what is read off it. -/
theorem Reads.filter (h : Reads 10 text e last) (hitems : List.Forall₂ Item texts es)
    (hne : es ≠ []) : Reads 9 (text ++ predicatesText texts) (.filter e es) (.filter e es) := by
  obtain ⟨e', es, rfl⟩ := List.exists_cons_of_ne_nil hne
  obtain ⟨first, more, hfirst, hmore, rfl⟩ := List.forall₂_cons_right_iff.mp hitems
  have hinner := hitems.imp fun _ _ => Item.inner
  have hstands : Stands 9 (text ++ predicatesText (first :: more)) :=
    (h.toStands.mono (by omega)).append (trimmed_predicatesText _)
  refine { hstands with reads := fun rest hrest => ?_ }
  obtain ⟨t, ht, hmany⟩ := many_predicate_append hinner (head_ne_bracket hrest (Nat.le_refl _))
  have hopen : Ends 10 (predicatesText (first :: more) ++ rest) := .bracket (Nat.le_refl _) _
  obtain ⟨u, hu, hread⟩ := h.reads _ hopen
  obtain rfl : u = predicatesText (first :: more) ++ rest := by rcases hu with rfl | rfl <;> rfl
  -- a bracket follows the operand, so its own value is read and not `last`
  rw [if_neg (by simp [predicatesText])] at hread
  have hfiltered : filtered expression (text ++ (predicatesText (first :: more) ++ rest)) =
      some (.filter e (e' :: es), t) :=
    map_eq_some.mpr ⟨(e, e' :: es), both_eq_some.mpr ⟨_, hread, hmany⟩, rfl⟩
  refine ⟨t, ht, ?_⟩
  rw [ite_self, List.append_assoc]
  exact hfiltered

end MarkupQuery.Query
