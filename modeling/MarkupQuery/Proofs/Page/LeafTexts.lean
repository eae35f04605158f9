import MarkupQuery.Proofs.Page.Leaves
import MarkupQuery.Proofs.Page.Scoping
import MarkupQuery.Proofs.Query.CallStarts

namespace MarkupQuery.Page

open MarkupQuery.Text MarkupQuery.Query Reader

variable {head tail b t z : List Char} {e : Expr} {steps : List Step} {setting : Setting}
  {focus : Focus}

/-- The text of an expression that begins with a slash and does not end in one. -/
structure Front (head : List Char) : Prop where
  slash : head.head? = some '/'
  read : ∃ e, expression head = some (e, [])
  last : head.getLast? ≠ some '/'

section Texts

theorem operatorLevel_of_blank {c : Char} (hc : isBlank c = true) : operatorLevel c = none := by
  unfold operatorLevel
  split <;> first | rfl | exact absurd hc (by decide)

/-- Steps that a text consists of are all taken where a branch may end. -/
theorem exhaust_steps (hs : slashSteps expression tail = some (steps, [])) (ht : EndsPath t) :
    exhaust (slashStep expression) (tail ++ t) = t ∨
      exhaust (slashStep expression) (tail ++ t) = skipSpace t := by
  obtain ⟨r, hr, happend⟩ := slashSteps_append hs ht.1
  rw [slashSteps_of_none (slashStep_of_no_slash (ht.head_ne_slash hr))] at happend
  have hrest := rest_eq_some.mpr ⟨_, happend⟩
  rw [rest_slashSteps] at hrest
  rcases hr with rfl | rfl
  · exact .inl (Option.some.inj hrest)
  · exact .inr (Option.some.inj hrest)

namespace Front

variable (h : Front head)

include h

theorem rest_append (hz : Stops z) : ∃ w, (w = z ∨ w = skipSpace z) ∧
    rest expression (head ++ z) = some (afterOperations (exhaust (slashStep expression) w)) := by
  obtain ⟨e, he⟩ := h.read
  exact rest_expression_append hz (.inl h.last) he

/-- Behind a front only steps and operations go on. -/
theorem rest_append_slash (hz : z.head? = some '/') : rest expression (head ++ z) =
    some (afterOperations (exhaust (slashStep expression) z)) := by
  obtain ⟨w, hw, hread⟩ := h.rest_append (stops_of_slash hz)
  rw [skipSpace_of_slash hz, or_self] at hw
  rwa [hw] at hread

theorem fits_steps (hs : slashSteps expression tail = some (steps, []))
    (hshape : tail = [] ∨ tail.head? = some '/') : Fits (head ++ tail) where
  leads := (show Leads head from .inl h.slash).append tail
  reads t ht := by
    have hsteps : ∃ w, (w = t ∨ w = skipSpace t) ∧
        rest expression (head ++ (tail ++ t)) = some (afterOperations w) := by
      rcases hshape with rfl | hslash
      · obtain ⟨w, hw, hread⟩ := h.rest_append ht.endsPath.1
        have hnone : rest (slashStep expression) w = none :=
          rest_eq_none.mpr (slashStep_of_no_slash (ht.endsPath.head_ne_slash hw))
        rw [exhaust_of_none hnone] at hread
        exact ⟨w, hw, hread⟩
      · have hfirst : (tail ++ t).head? = some '/' := by
          obtain ⟨tail, rfl⟩ := List.head?_eq_some_iff.mp hslash
          rfl
        exact ⟨_, exhaust_steps hs ht.endsPath, h.rest_append_slash hfirst⟩
    obtain ⟨w, rfl | rfl, hread⟩ := hsteps
    · exact ⟨_, by rwa [List.append_assoc], rfl⟩
    · exact ⟨_, by rwa [List.append_assoc], skipSpace_afterOperations t⟩

theorem sticks_slash : Sticks (head ++ ['/']) where
  leads := (show Leads head from .inl h.slash).append _
  reads t r ht hr := by
    have hstep : rest (slashStep expression) ('/' :: t) = none := by
      rw [rest_slashStep_of_one (ht.endsPath.head_ne_slash (.inl rfl)), rest_eq_none]
      exact step_of_stops ht.endsPath.1
    rw [List.append_assoc, List.singleton_append, h.rest_append_slash rfl, exhaust_of_none hstep,
      afterOperations_of_head rfl] at hr
    obtain rfl := Option.some.inj hr
    exact ⟨'/', rfl, by decide⟩

/-- Behind a slash the name of a function is read as far as a step goes. -/
theorem sticks_call (hb : trimStart b = b) (hcall : startsWithCall b = true) :
    Sticks (head ++ '/' :: b) where
  leads := (show Leads head from .inl h.slash).append _
  reads t r ht hr := by
    obtain ⟨cs, rest', rfl, htext⟩ : ∃ cs rest', b = cs ++ rest' ∧ CallText cs rest' :=
      ⟨_, _, List.takeWhile_append_dropWhile.symm, callText_of_startsWithCall hb hcall⟩
    have htext := htext.append t
    obtain ⟨c, hc, hstart⟩ := htext.start
    have hone : (cs ++ (rest' ++ t)).head? ≠ some '/' := by
      obtain ⟨cs, rfl⟩ := List.head?_eq_some_iff.mp hc
      rintro he
      obtain rfl := Option.some.inj he
      exact absurd hstart (by decide)
    rw [List.append_assoc, List.cons_append, List.append_assoc, h.rest_append_slash rfl] at hr
    obtain rfl := Option.some.inj hr
    have hslash := rest_slashStep_of_one hone
    cases hread : rest (step expression) (cs ++ (rest' ++ t)) with
    | none =>
      rw [hread] at hslash
      rw [exhaust_of_none hslash, afterOperations_of_head rfl]
      exact ⟨'/', rfl, by decide⟩
    -- the name is read as a step at most, so what is left begins with no operator
    | some u =>
      obtain ⟨c, hc, hends⟩ := htext.step hread
      have hno : operatorLevel c = none ∧ c ≠ '/' ∧ c ≠ ')' := by
        rcases hends with rfl | rfl | hblank
        · decide
        · decide
        · refine ⟨operatorLevel_of_blank hblank, ?_, ?_⟩ <;> rintro rfl <;>
            exact absurd hblank (by decide)
      have hhead : u.head? ≠ some '/' := by
        intro hu
        rw [skipSpace_of_slash hu, hu] at hc
        exact hno.2.1 (Option.some.inj hc).symm
      rw [hread] at hslash
      rw [strict_slashStep.exhaust_of_some hslash,
        exhaust_of_none (rest_eq_none.mpr (slashStep_of_no_slash hhead)), afterOperations_of_head]
      · exact ⟨c, hc, hno.2.2⟩
      · rw [Option.mem_def.mp hc]
        exact hno.1

end Front

/-- Nothing can be read behind a text that ends in a blank other than a space. -/
theorem sticks_of_blank (hslash : head.head? = some '/') (hread : expression head = some (e, []))
    {c : Char} (hc : isBlank c = true) (hspace : isSpace c = false) (s : List Char) :
    Sticks (head ++ c :: s) where
  leads := (show Leads head from .inl hslash).append _
  reads t r _ hr := by
    have hskip : skipSpace (c :: (s ++ t)) = c :: (s ++ t) := by simp [skipSpace, hspace]
    have hstops : Stops (c :: (s ++ t)) := by
      rw [Stops, hskip]
      rintro _ ⟨⟩
      exact .inr (.inr (.inr hc))
    have hne : ∀ d, isBlank d = false → c ≠ d := by
      rintro d hd rfl
      simp [hc] at hd
    have hhead : (c :: (s ++ t)).head? ≠ some '/' := by simpa using hne '/' (by decide)
    obtain ⟨w, hw, hwhole⟩ := rest_expression_append hstops (.inr hhead) hread
    rw [hskip, or_self] at hw
    rw [List.append_assoc, List.cons_append, hwhole, hw,
      exhaust_of_none (rest_eq_none.mpr (slashStep_of_no_slash hhead)), afterOperations_of_head] at hr
    · obtain rfl := Option.some.inj hr
      refine ⟨c, ?_, hne ')' (by decide)⟩
      rw [hskip]
      rfl
    · rw [hskip]
      exact operatorLevel_of_blank hc

end Texts

section Leaves

/-- What a primary expression is that begins neither like a numeral nor with a parenthesis. -/
theorem literal_or_call (hn : Number.numeral? (skipSpace b) = none)
    (hopen : (skipSpace b).head? ≠ some '(') {r : List Char}
    (h : primary expression b = some (e, r)) :
    (∃ value, e = .literal value) ∨ startsWithCall (skipSpace b) = true := by
  rw [primary_of_no_numeral hn, unnumbered] at h
  obtain ⟨⟨_, u⟩, hread, he⟩ := Option.map_eq_some_iff.mp h
  obtain ⟨rfl, -⟩ := Prod.mk.inj he
  have hparen : parenthesized expression (skipSpace b) = none := by
    have hchar : Reader.spaced (.char '(') (skipSpace b) = none :=
      spaced_char_of_head_ne (by rwa [skipSpace_skipSpace])
    simp [parenthesized, Reader.map, Reader.both, hchar]
  simp only [Reader.orElse, hparen] at hread
  split at hread
  · rename_i found hfound
    obtain ⟨value, -, rfl⟩ := map_eq_some.mp (hfound.trans hread)
    exact .inl ⟨value, rfl⟩
  · split at hread
    · rename_i found hfound
      exact .inr (startsWithCall_of_functionCall (hfound.trans hread))
    · cases hread

/-- A leaf that selects nodes starts with a function call, or is a slash, or goes on with steps
behind a context. -/
theorem leaf_cases (h : BranchSelects setting focus b) (hleaf : parenthesized? b = none) :
    startsWithCall b = true ∨ b = ['/'] ∨ ∀ nested head, ∃ tail steps,
      scopeBranch nested head b = head ++ tail ∧ slashSteps expression tail = some (steps, []) ∧
        (tail = [] ∨ tail.head? = some '/') := by
  obtain ⟨e, found, hb, he⟩ := h
  have hskip : skipSpace b = b := skipSpace_of_not_blank hb.head_not_blank
  -- a parenthesis would make it no leaf
  have hopen : (skipSpace b).head? ≠ some '(' := by
    rw [hskip]
    intro hopen
    obtain ⟨x, rfl⟩ := List.head?_eq_some_iff.mp hopen
    obtain ⟨inner, y, -, hparen, -⟩ := selects_of_parentheses ⟨e, found, hb, he⟩
    rw [hparen] at hleaf
    cases hleaf
  by_cases hslash : b.head? = some '/'
  · obtain ⟨⟨steps, rfl⟩, -⟩ := absolutePath_end (absolutePath_of_path hslash hb.read)
    by_cases hne : steps = []
    · subst hne
      exact .inr (.inl (eq_slash_of_path hslash hb.read))
    · refine .inr (.inr fun nested head =>
        ⟨b, steps, ?_, slashSteps_of_path hslash hne hb.read, .inr hslash⟩)
      obtain ⟨b, rfl⟩ := List.head?_eq_some_iff.mp hslash
      simp [scopeBranch, parenthesized?]
  · obtain ⟨e', more, rfl, ⟨t, hfiltered⟩ | ⟨t, hlocation, -⟩⟩ := path_cases hb.read
    · -- literals have no nodes
      have hnumeral : Number.numeral? (skipSpace b) = none := by
        by_contra hn
        exact (ofNumber_of_path hb.read hn).evaluate_ne he
      obtain ⟨⟨p, predicates⟩, hboth, rfl⟩ := map_eq_some.mp hfiltered
      obtain ⟨u, hprimary, -⟩ := both_eq_some.mp hboth
      obtain ⟨sites, hsites⟩ := nodes_of_start he
      rcases literal_or_call hnumeral hopen hprimary with ⟨value, rfl⟩ | hcall
      · rw [evaluate] at hsites
        cases hsites
      · rw [hskip] at hcall
        exact .inl hcall
    · rw [locationPath_of_no_slash hslash] at hlocation
      obtain ⟨first, u, lists, -, -, rfl⟩ := relativePath_iff.mp hlocation
      obtain ⟨steps, hsteps⟩ : ∃ steps,
          (Expr.relative (first :: lists.flatten)).continueBy more = .relative steps := by
        cases more with
        | nil => exact ⟨_, rfl⟩
        | cons step more => exact ⟨_, rfl⟩
      have hread := hb.read
      rw [hsteps] at hread
      have hpiece : Piece b (.relative steps) := ⟨relativePath_of_path hopen hread, hb.trimEnd_eq⟩
      refine .inr (.inr fun nested head => ?_)
      obtain ⟨more, tail, hscope, -, htail, hshape⟩ := scopeBranch_eq nested head hpiece
      exact ⟨tail, more, hscope, htail, hshape.imp_right And.left⟩

/-- A leaf that cannot be read behind a context: a slash alone, or one that starts with a call. -/
def Misplaced (leaf : List Char) : Prop := leaf = ['/'] ∨ startsWithCall leaf = true

/-- Behind a front a leaf is read to its end unless it is misplaced. -/
theorem Front.settles_leaf (hfront : Front head) (h : BranchSelects setting focus b)
    (hleaf : parenthesized? b = none) (nested : List Char → List Char) :
    Settles Misplaced [b] (scopeBranch nested head b) := by
  have htrim : trimStart b = b := by
    obtain ⟨e, found, hb, -⟩ := h
    exact trimStart_of_head hb.head_not_blank
  by_cases hcall : startsWithCall b = true
  · have hscope : scopeBranch nested head b = head ++ '/' :: b := by
      obtain ⟨c, hc, hstart⟩ := (callText_of_startsWithCall htrim hcall).start
      obtain ⟨cs, hcs⟩ := List.head?_eq_some_iff.mp hc
      have hb : b = c :: (cs ++ b.dropWhile isCallChar) := by
        rw [← List.cons_append, ← hcs]
        exact List.takeWhile_append_dropWhile.symm
      have hpoint : c ≠ '.' := by
        rintro rfl
        exact absurd hstart (by decide)
      rw [hb]
      exact scopeBranch_of_step (by simp [startsStep, hstart]) (by simp [hpoint])
        (by rintro ⟨_, hcons⟩; exact hpoint (List.cons.inj hcons).1) nested head
    rw [hscope]
    exact .inr ⟨⟨b, List.mem_singleton_self b, .inr hcall⟩, hfront.sticks_call htrim hcall⟩
  by_cases hslash : b = ['/']
  · subst hslash
    exact .inr ⟨⟨_, List.mem_singleton_self _, .inl rfl⟩, hfront.sticks_slash⟩
  · obtain ⟨tail, steps, hscope, hsteps, hshape⟩ :=
      ((leaf_cases h hleaf).resolve_left hcall).resolve_left hslash nested head
    rw [hscope]
    refine .inl ⟨?_, hfront.fits_steps hsteps hshape⟩
    simpa [Misplaced] using And.intro hslash (by simpa using hcall)

/-- Behind a text that ends in a blank other than a space no leaf is read to its end. -/
theorem settles_leaf_of_blank {c : Char} (hslash : head.head? = some '/')
    (hread : expression head = some (e, [])) (hc : isBlank c = true) (hspace : isSpace c = false)
    {s : List Char} (hleaf : parenthesized? b = none) (nested : List Char → List Char) :
    Settles (fun _ => True) [b] (scopeBranch nested (head ++ c :: s) b) := by
  obtain ⟨x, hx⟩ : ∃ x, scopeBranch nested (head ++ c :: s) b = head ++ c :: x := by
    unfold scopeBranch
    rw [hleaf]
    split
    · exact ⟨s, rfl⟩
    · dsimp only
      split <;> exact ⟨_, by rw [List.append_assoc, List.cons_append]⟩
  rw [hx]
  exact .inr ⟨⟨b, List.mem_singleton_self b, trivial⟩, sticks_of_blank hslash hread hc hspace x⟩

end Leaves

end MarkupQuery.Page
