import MarkupQuery.Proofs.Query.BrokenSteps
import MarkupQuery.Proofs.Query.WholeBranches
import MarkupQuery.Proofs.Text.Words

namespace MarkupQuery.Query

open MarkupQuery.Text MarkupQuery.Page Reader

variable {cs rest suffix s t b r : List Char} {name first : String} {e : Expr}

/-- Names of functions have the characters of names, and colons. -/
theorem isCallChar_iff {c : Char} : isCallChar c = true ↔ isNameChar c = true ∨ c = ':' := by
  simp only [isCallChar, isNameChar, Bool.or_eq_true, beq_iff_eq]

theorem isNameChar_of_not_isCallChar {c : Char} (h : isCallChar c = false) :
    isNameChar c = false := by
  cases hc : isNameChar c with
  | false => rfl
  | true => simp [isCallChar_iff.mpr (.inl hc)] at h

theorem isBlank_of_isCallChar {c : Char} (h : isCallChar c = true) : isBlank c = false := by
  rcases isCallChar_iff.mp h with hc | rfl
  · exact isBlank_of_isNameChar hc
  · decide

structure CallText (cs rest : List Char) : Prop where
  chars : ∀ c ∈ cs, isCallChar c = true
  start : ∃ c ∈ cs.head?, isNameStart c = true
  noAxis : ¬ "::".toList <:+: cs
  noType : isNodeTypeName (String.ofList cs) = false
  ends : ∀ c ∈ rest.head?, isCallChar c = false
  opens : (trimStart rest).head? = some '('

theorem callText_of_startsWithCall (hb : trimStart b = b) (h : startsWithCall b = true) :
    CallText (b.takeWhile isCallChar) (b.dropWhile isCallChar) := by
  simp only [startsWithCall, hb, Bool.and_eq_true, Bool.not_eq_true', beq_iff_eq] at h
  obtain ⟨⟨⟨hstart, haxis⟩, hopen⟩, htype⟩ := h
  refine ⟨fun c => List.mem_takeWhile_imp, ?_, ?_, htype, ?_, hopen⟩
  · cases hhead : (b.takeWhile isCallChar).head? with
    | none => simp [hhead] at hstart
    | some c =>
      rw [hhead] at hstart
      exact ⟨c, rfl, hstart⟩
  · rw [← contains_iff, haxis]
    simp
  · intro c hc
    have hnot := List.head?_dropWhile_not isCallChar b
    rw [Option.mem_def.mp hc] at hnot
    simpa using hnot

theorem CallText.startsWithCall (h : CallText cs rest) : startsWithCall (cs ++ rest) = true := by
  obtain ⟨c, hc, hstart⟩ := h.start
  have hblank : ∀ x ∈ (cs ++ rest).head?, isBlank x = false := by
    obtain ⟨cs, rfl⟩ := List.head?_eq_some_iff.mp hc
    intro x hx
    obtain rfl : c = x := by simpa using hx
    exact isBlank_of_isNameChar (isNameChar_of_isNameStart hstart)
  have hrest : rest.takeWhile isCallChar = [] ∧ rest.dropWhile isCallChar = rest := by
    cases rest with
    | nil => exact ⟨rfl, rfl⟩
    | cons x rest => simp [h.ends x rfl]
  have haxis : contains cs "::".toList = false := by
    cases hcontains : contains cs "::".toList with
    | false => rfl
    | true => exact absurd (contains_iff.mp hcontains) h.noAxis
  have hany : (cs.head?.any fun c => isLetter c || c == '_') = true := by
    rw [Option.mem_def.mp hc]
    exact hstart
  unfold Page.startsWithCall
  rw [trimStart_of_head hblank]
  simp only [List.takeWhile_append_of_pos h.chars, List.dropWhile_append_of_pos h.chars, hrest.1,
    hrest.2, List.append_nil, hany, haxis, h.opens, h.noType]
  rfl

namespace CallText

theorem ne_nil (h : CallText cs rest) : rest ≠ [] := by
  rintro rfl
  have hopens := h.opens
  cases hopens

theorem append (h : CallText cs rest) (t : List Char) : CallText cs (rest ++ t) where
  chars := h.chars
  start := h.start
  noAxis := h.noAxis
  noType := h.noType
  ends := by
    rw [List.head?_append_of_ne_nil _ h.ne_nil]
    exact h.ends
  opens := by
    have hne : trimStart rest ≠ [] := by
      intro hnil
      have hopens := h.opens
      rw [hnil] at hopens
      cases hopens
    have htrim : trimStart (rest ++ t) = trimStart rest ++ t := by
      unfold trimStart at hne ⊢
      rw [List.dropWhile_append, if_neg (by simpa using hne)]
    rw [htrim, List.head?_append_of_ne_nil _ hne]
    exact h.opens

/-- Behind the name comes a parenthesis, or a blank that is not skipped. -/
theorem head (h : CallText cs rest) :
    ∃ c ∈ (skipSpace rest).head?, c = '(' ∨ isBlank c = true := by
  have hsplit : trimStart rest = trimStart (skipSpace rest) := by
    obtain ⟨w, hw, hspaces⟩ := exists_spaces rest
    have hblanks : ∀ c ∈ w, isBlank c = true := fun c hc => isBlank_of_isSpace c (hspaces c hc)
    conv_lhs => rw [hw]
    exact List.dropWhile_append_of_pos hblanks
  have hopens := h.opens
  rw [hsplit] at hopens
  cases hskip : skipSpace rest with
  | nil =>
    rw [hskip] at hopens
    cases hopens
  | cons c more =>
    refine ⟨c, rfl, ?_⟩
    cases hblank : isBlank c with
    | true => exact .inr rfl
    | false =>
      rw [hskip, trimStart_of_head (by simpa using hblank)] at hopens
      exact .inl (Option.some.inj hopens)

theorem noNameChar (h : CallText cs rest) : ∀ c ∈ rest.head?, isNameChar c = false := fun c hc =>
  isNameChar_of_not_isCallChar (h.ends c hc)

theorem axis (h : CallText cs rest) : Query.axis (cs ++ rest) = none := by
  cases hread : axisName (cs ++ rest) with
  | none => simp [Query.axis, Reader.map, Reader.both, hread]
  | some found =>
    obtain ⟨axis, after⟩ := found
    obtain ⟨suffix, rfl, hsuffix⟩ := suffix_of_oneOf (by decide) h.noNameChar hread
    have hcolons : Reader.word "::" (suffix ++ rest) = none := by
      by_contra hsome
      obtain ⟨⟨u, after⟩, hword⟩ := Option.ne_none_iff_exists'.mp hsome
      have htext : suffix ++ rest = ':' :: ':' :: after := eq_append_of_word hword
      have hcolon : ∀ more, rest ≠ ':' :: more := by
        rintro more rfl
        exact absurd (h.ends ':' rfl) (by decide)
      rcases suffix with _ | ⟨c, _ | ⟨d, more⟩⟩
      · exact hcolon _ htext
      · exact hcolon _ (List.cons.inj htext).2
      · have hc := List.cons.inj htext
        have hd := List.cons.inj hc.2
        refine h.noAxis (List.IsInfix.trans ⟨[], more, ?_⟩ hsuffix.isInfix)
        rw [hc.1, hd.1]
        rfl
    simp [Query.axis, Reader.map, Reader.both, hread, hcolons]

theorem typeTest (h : CallText cs rest) : Query.typeTest (cs ++ rest) = none := by
  cases hread : nodeType (cs ++ rest) with
  | none => simp [Query.typeTest, Reader.map, Reader.both, hread]
  | some found =>
    obtain ⟨type, after⟩ := found
    obtain ⟨entry, hentry, hword⟩ := List.exists_of_findSome?_eq_some hread
    obtain ⟨u, hword, -⟩ := map_eq_some.mp hword
    have hname : ∀ c ∈ entry.2.toList, isNameChar c = true :=
      List.all_eq_true.mp (List.all_eq_true.mp (show areNames nodeTypeNames = true by decide)
        entry hentry)
    have htext := eq_append_of_word hword
    obtain ⟨suffix, rfl, hsuffix⟩ := suffix_of_word hname h.noNameChar htext
    cases suffix with
    | nil =>
      -- the whole name would be that of a node type
      have hcs : cs = entry.2.toList := List.append_cancel_right htext
      have htype : isNodeTypeName (String.ofList cs) = true := by
        rw [hcs, String.ofList_toList]
        exact List.any_eq_true.mpr ⟨entry, hentry, by simp⟩
      rw [h.noType] at htype
      cases htype
    | cons c suffix =>
      have hc := h.chars c (hsuffix.subset List.mem_cons_self)
      have hopen : Reader.spaced (.char '(') (c :: (suffix ++ rest)) = none := by
        refine spaced_char_of_head_ne ?_
        rw [skipSpace_of_not_blank (by simpa using isBlank_of_isCallChar hc)]
        rintro he
        obtain rfl := Option.some.inj he
        exact absurd hc (by decide)
      simp [Query.typeTest, Reader.map, Reader.both, hread, hopen]

end CallText

/-- A name that is read is all of the text up to where no name goes on. -/
theorem plainName_eq_some (h : plainName s = some (first, r)) :
    s = first.toList ++ r ∧ IsPlain first ∧ ∀ c ∈ r.head?, isNameChar c = false := by
  cases s with
  | nil => cases h
  | cons c s =>
    rw [plainName] at h
    split at h
    · rename_i hc
      obtain ⟨rfl, rfl⟩ := Prod.mk.inj (Option.some.inj h)
      refine ⟨?_, isPlain_of_eq_cons String.toList_ofList hc fun x => List.mem_takeWhile_imp, ?_⟩
      · rw [String.toList_ofList, List.cons_append, List.takeWhile_append_dropWhile]
      · intro x hx
        have hnot := List.head?_dropWhile_not isNameChar s
        rw [Option.mem_def.mp hx] at hnot
        simpa using hnot
    · cases h

namespace CallText

/-- A name ends at a colon in the name of the function, or with it. -/
theorem plainName (h : CallText cs rest) (hsuffix : suffix <:+ cs)
    (hread : Query.plainName (suffix ++ rest) = some (first, r)) : ∃ suffix', r = suffix' ++ rest ∧
      suffix' <:+ cs ∧ (suffix' = [] ∨ suffix'.head? = some ':') := by
  obtain ⟨htext, hplain, hr⟩ := plainName_eq_some hread
  obtain ⟨suffix', rfl, hsuffix'⟩ := suffix_of_word hplain.isNameChar h.noNameChar htext
  refine ⟨suffix', rfl, hsuffix'.trans hsuffix, ?_⟩
  cases suffix' with
  | nil => exact .inl rfl
  | cons c suffix' =>
    have hc := h.chars c ((hsuffix'.trans hsuffix).subset List.mem_cons_self)
    rcases isCallChar_iff.mp hc with hname | rfl
    · simp [hname] at hr
    · exact .inr rfl

theorem noColon (h : CallText cs rest) (t : List Char) : rest ≠ ':' :: t := by
  rintro rfl
  exact absurd (h.ends ':' rfl) (by decide)

theorem qualifiedName (h : CallText cs rest) {name : Option String × String}
    (hread : Query.qualifiedName (cs ++ rest) = some (name, r)) :
    ∃ suffix, r = suffix ++ rest ∧ (suffix = [] ∨ suffix.head? = some ':') := by
  simp only [Query.qualifiedName, Option.bind_eq_bind, Option.bind_eq_some_iff] at hread
  obtain ⟨⟨first, u⟩, hfirst, hread⟩ := hread
  obtain ⟨suffix, rfl, hsuffix, hcolon⟩ := h.plainName List.suffix_rfl hfirst
  split at hread
  · rename_i more hu
    obtain ⟨suffix, rfl⟩ : ∃ suffix', suffix = ':' :: suffix' := by
      rcases hcolon with rfl | hcolon
      · exact absurd hu (h.noColon more)
      · exact List.head?_eq_some_iff.mp hcolon
    obtain rfl := (List.cons.inj hu).2
    split at hread
    · rename_i second after hsecond
      cases hread
      obtain ⟨suffix', rfl, -, hcolon'⟩ :=
        h.plainName ((List.suffix_cons _ _).trans hsuffix) hsecond
      exact ⟨suffix', rfl, hcolon'⟩
    · cases hread
      exact ⟨':' :: suffix, rfl, .inr rfl⟩
  · cases hread
    exact ⟨suffix, rfl, hcolon⟩

theorem anyInTest (h : CallText cs rest) : Query.anyInTest (cs ++ rest) = none := by
  cases hread : Query.plainName (cs ++ rest) with
  | none => simp [Query.anyInTest, Reader.map, Reader.both, hread]
  | some found =>
    obtain ⟨first, u⟩ := found
    obtain ⟨suffix, rfl, hsuffix, hcolon⟩ := h.plainName List.suffix_rfl hread
    have hword : Reader.word ":*" (suffix ++ rest) = none := by
      by_contra hsome
      obtain ⟨⟨_, after⟩, hword⟩ := Option.ne_none_iff_exists'.mp hsome
      have htext : suffix ++ rest = ':' :: '*' :: after := eq_append_of_word hword
      rcases suffix with _ | ⟨_, _ | ⟨d, _⟩⟩
      · exact h.noColon _ htext
      · have hopens := h.opens
        have hrest : rest = '*' :: after := (List.cons.inj htext).2
        rw [hrest, trimStart_of_head (by simp; decide)] at hopens
        cases hopens
      · have hd := (List.cons.inj (List.cons.inj htext).2).1
        have hc := h.chars d (hsuffix.subset (by simp))
        rw [hd] at hc
        exact absurd hc (by decide)
    simp [Query.anyInTest, Reader.map, Reader.both, hread, hword]

/-- A step ends in front of a colon of the name or in front of what follows the name. -/
theorem step (h : CallText cs rest) (hread : Reader.rest (Query.step expression) (cs ++ rest) = some r) :
    ∃ c ∈ (skipSpace r).head?, c = ':' ∨ c = '(' ∨ isBlank c = true := by
  obtain ⟨c, hc, hstart⟩ := h.start
  obtain ⟨cs, rfl⟩ := List.head?_eq_some_iff.mp hc
  have hstar : Reader.char '*' (c :: cs ++ rest) = none := by
    refine char_of_head_ne ?_
    rintro he
    obtain rfl := Option.some.inj he
    exact absurd hstart (by decide)
  obtain ⟨⟨test, u⟩, htest⟩ := Option.ne_none_iff_exists'.mp (nodeTest_of_start hstart (cs ++ rest))
  have hqualified := htest
  rw [← List.cons_append] at hqualified
  simp only [nodeTest, Reader.orElse, Reader.map, hstar, h.typeTest, h.anyInTest, Option.map_none]
    at hqualified
  obtain ⟨⟨name, v⟩, hname, he⟩ := Option.map_eq_some_iff.mp hqualified
  obtain ⟨-, rfl⟩ := Prod.mk.inj he
  obtain ⟨suffix, rfl, hcolon⟩ := h.qualifiedName hname
  have hhead : ∃ c ∈ (skipSpace (suffix ++ rest)).head?, c = ':' ∨ c = '(' ∨ isBlank c = true := by
    rcases hcolon with rfl | hcolon
    · obtain ⟨c, hc, hends⟩ := h.head
      exact ⟨c, hc, .inr hends⟩
    · obtain ⟨suffix, rfl⟩ := List.head?_eq_some_iff.mp hcolon
      exact ⟨':', rfl, .inl rfl⟩
  -- behind the name of a function comes no predicate
  have hbracket : (skipSpace (suffix ++ rest)).head? ≠ some '[' := by
    obtain ⟨c, hc, hends⟩ := hhead
    rw [Option.mem_def.mp hc]
    rintro he
    obtain rfl := Option.some.inj he
    revert hends
    decide
  have hstep := stepHead_of_nodeTest rfl (.inl hstart) h.axis htest
  rw [Query.step, rest_map, rest_both, rest_eq_some.mpr ⟨_, hstep⟩, Option.bind_some, rest_many,
    exhaust_of_none (rest_eq_none.mpr (predicate_of_head_ne hbracket expression))] at hread
  obtain rfl := Option.some.inj hread
  exact hhead

end CallText

section Calls

theorem IsPlain.count_colon (h : IsPlain name) : name.toList.count ':' = 0 :=
  List.count_eq_zero.mpr fun hmem => absurd (h.isNameChar ':' hmem) (by decide)

theorem not_colons_of_count (h : cs.count ':' ≤ 1) : ¬ "::".toList <:+: cs := by
  intro hinfix
  have hcount := hinfix.sublist.count_le ':'
  have htwo : "::".toList.count ':' = 2 := by decide
  omega

theorem trimStart_of_parenthesis (h : (skipSpace t).head? = some '(') :
    (trimStart t).head? = some '(' := by
  obtain ⟨w, hw, hspaces⟩ := exists_spaces t
  have hblanks : ∀ c ∈ w, isBlank c = true := fun c hc => isBlank_of_isSpace c (hspaces c hc)
  rw [hw, trimStart, List.dropWhile_append_of_pos hblanks]
  obtain ⟨more, hmore⟩ := List.head?_eq_some_iff.mp h
  rw [hmore]
  rfl

theorem ends_of_parenthesis (h : (skipSpace t).head? = some '(')
    (ht : ∀ c ∈ t.head?, isNameChar c = false) : ∀ c ∈ t.head?, isCallChar c = false := by
  intro c hc
  obtain ⟨t, rfl⟩ := List.head?_eq_some_iff.mp hc
  cases hcall : isCallChar c with
  | false => rfl
  | true =>
    rcases isCallChar_iff.mp hcall with hname | rfl
    · rw [ht c rfl] at hname
      cases hname
    · exact absurd (Option.some.inj h) (by decide)

/-- A plain name that is no node type starts a call in front of a parenthesis. -/
theorem IsPlain.callText (h : IsPlain name) (htype : isNodeTypeName name = false)
    (hparen : (skipSpace t).head? = some '(') (ht : ∀ c ∈ t.head?, Query.isNameChar c = false) :
    CallText name.toList t where
  chars c hc := isCallChar_iff.mpr (.inl (h.isNameChar c hc))
  start := by simpa using h.head []
  noAxis := not_colons_of_count (by rw [h.count_colon]; exact Nat.zero_le 1)
  noType := by rwa [String.ofList_toList]
  ends := ends_of_parenthesis hparen ht
  opens := trimStart_of_parenthesis hparen

/-- No node type has a qualified name, so such a name always starts a call. -/
theorem IsPlain.callText_qualified {second : String} (h : IsPlain first) (h' : IsPlain second)
    (hparen : (skipSpace t).head? = some '(') (ht : ∀ c ∈ t.head?, Query.isNameChar c = false) :
    CallText (first.toList ++ ':' :: second.toList) t where
  chars c hc := by
    rcases List.mem_append.mp hc with hc | hc
    · exact isCallChar_iff.mpr (.inl (h.isNameChar c hc))
    · rcases List.mem_cons.mp hc with rfl | hc
      · decide
      · exact isCallChar_iff.mpr (.inl (h'.isNameChar c hc))
  start := h.head _
  noAxis := by
    refine not_colons_of_count ?_
    rw [List.count_append, List.count_cons_self, h.count_colon, h'.count_colon]
  noType := isNodeTypeName_of_colon (by simp)
  ends := ends_of_parenthesis hparen ht
  opens := trimStart_of_parenthesis hparen

/-- A function call starts with a name and a parenthesis. -/
theorem callText_of_functionCall (h : functionCall expression s = some (e, r)) :
    ∃ cs rest, s = cs ++ rest ∧ CallText cs rest := by
  simp only [functionCall, Option.bind_eq_bind, Option.bind_eq_some_iff] at h
  obtain ⟨⟨name, t⟩, hname, ⟨_, u⟩, hopen, h⟩ := h
  split at h
  · cases h
  rename_i htype
  have hparen : (skipSpace t).head? = some '(' := by
    have ht : skipSpace t = '(' :: u := char_eq_some.mp hopen
    rw [ht]
    rfl
  simp only [qualifiedName, Option.bind_eq_bind, Option.bind_eq_some_iff] at hname
  obtain ⟨⟨first, v⟩, hfirst, hname⟩ := hname
  obtain ⟨rfl, hplain, hv⟩ := plainName_eq_some hfirst
  have hunqualified : name = (none, first) → v = t →
      ∃ cs rest, first.toList ++ v = cs ++ rest ∧ CallText cs rest := by
    rintro rfl rfl
    have hnot : isNodeTypeName first = false := by simpa [isTypeName] using htype
    exact ⟨first.toList, v, rfl, hplain.callText hnot hparen hv⟩
  split at hname
  · rename_i more hmore
    obtain rfl : v = ':' :: more := hmore
    split at hname
    · rename_i second after hsecond
      cases hname
      obtain ⟨rfl, hplain', hafter⟩ := plainName_eq_some hsecond
      exact ⟨first.toList ++ ':' :: second.toList, t, by simp,
        hplain.callText_qualified hplain' hparen hafter⟩
    · cases hname
      exact hunqualified rfl rfl
  · cases hname
    exact hunqualified rfl rfl

theorem startsWithCall_of_functionCall (h : functionCall expression s = some (e, r)) :
    startsWithCall s = true := by
  obtain ⟨cs, rest, rfl, hcall⟩ := callText_of_functionCall h
  exact hcall.startsWithCall

end Calls

end MarkupQuery.Query
