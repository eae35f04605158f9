import MarkupQuery.Proofs.Selector.Matching
import MarkupQuery.Proofs.Selector.Scanning

namespace MarkupQuery.Selector

open MarkupQuery.Text MarkupQuery.Query

/-- White space and the signs between compounds and between selectors. No name goes on with them. -/
def cutSigns : List Char := [' ', '\t', '\r', '\n', '>', ',']

def Cuts (u : List Char) : Prop := ∃ c t, u = c :: t ∧ c ∈ cutSigns

def Tight (s : List Char) : Prop :=
  (∀ x ∈ s.head?, isBlank x = false) ∧ ∀ x ∈ s.getLast?, isBlank x = false

instance (s : List Char) : Decidable (Tight s) :=
  decidable_of_iff ((s.head?.all fun x => !isBlank x) ∧ (s.getLast?.all fun x => !isBlank x))
    (by simp [Tight, Option.all_eq_true])

variable {s t u rest : List Char} {word : String} {name : Name} {token : Token}
  {selector : String} {placed : List Placed} {offset : Nat}

abbrev Continued {α : Type} (u : List Char) (found : Option (α × List Char)) :
    Option (α × List Char) := found.map fun (a, rest) => (a, rest ++ u)

section Blanks

theorem skipSpace_append (h : skipSpace s ≠ []) (u : List Char) :
    skipSpace (s ++ u) = skipSpace s ++ u := by
  unfold skipSpace at h ⊢
  rw [List.dropWhile_append, if_neg (by simpa using h)]

theorem skipSpace_of_head (h : ∀ x ∈ s.head?, isBlank x = false) : skipSpace s = s := by
  cases s with
  | nil => rfl
  | cons x s =>
    have hx : isSpace x = false := by
      by_contra hspace
      simp [isBlank_of_isSpace x (by simpa using hspace)] at h
    simp [skipSpace, hx]

theorem skipSpace_ne_nil (hne : s ≠ []) (h : ∀ x ∈ s.getLast?, isBlank x = false) :
    skipSpace s ≠ [] := by
  intro hnil
  have hspace := List.dropWhile_eq_nil_iff.mp hnil _ (List.getLast_mem hne)
  have hblank := h _ (List.getLast?_eq_some_getLast hne)
  rw [isBlank_of_isSpace _ hspace] at hblank
  cases hblank

theorem skipSpace_spaces {w : List Char} (hw : ∀ c ∈ w, isSpace c = true) (s : List Char) :
    skipSpace (w ++ s) = skipSpace s := List.dropWhile_append_of_pos hw

end Blanks

section Cuts

variable (hu : Cuts u)

include hu

theorem Cuts.head : ∃ c t, u = c :: t ∧ isNameStart c = false ∧ isNameChar c = false ∧
    c ≠ '*' ∧ c ≠ '|' := by
  obtain ⟨c, t, rfl, hc⟩ := hu
  have hall : cutSigns.all fun c =>
      !isNameStart c && !isNameChar c && c != '*' && c != '|' := by decide
  have h := List.all_eq_true.mp hall c hc
  exact ⟨c, t, rfl, by simpa [and_assoc] using h⟩

theorem identifier_append (s : List Char) :
    identifier? (s ++ u) = Continued u (identifier? s) := by
  obtain ⟨c, t, rfl, hstart, hname, -⟩ := hu.head
  cases s with
  | nil => simp [identifier?, hstart]
  | cons x s =>
    obtain ⟨htake, hdrop⟩ : (s ++ c :: t).takeWhile isNameChar = s.takeWhile isNameChar ∧
        (s ++ c :: t).dropWhile isNameChar = s.dropWhile isNameChar ++ c :: t := by
      induction s with
      | nil => simp [hname]
      | cons y s ih => cases hy : isNameChar y <;> simp [hy, ih]
    simp only [List.cons_append, identifier?, htake, hdrop]
    split <;> rfl

theorem nameOrStar_append (s : List Char) :
    nameOrStar? (s ++ u) = Continued u (nameOrStar? s) := by
  have hother : ∀ s : List Char, s.head? ≠ some '*' → nameOrStar? s = identifier? s := by
    intro s hs
    unfold nameOrStar?
    split
    · exact absurd rfl hs
    · rfl
  by_cases hs : s.head? = some '*'
  · obtain ⟨s, rfl⟩ := List.head?_eq_some_iff.mp hs
    rfl
  · obtain ⟨c, t, hut, -, -, hstar, -⟩ := hu.head
    have happend : (s ++ u).head? ≠ some '*' := by
      cases s with
      | nil => simpa [hut] using hstar
      | cons x s => exact hs
    rw [hother _ hs, hother _ happend, identifier_append hu]

theorem qualifiedName_append (s : List Char) :
    qualifiedName? (s ++ u) = Continued u (qualifiedName? s) := by
  unfold qualifiedName?
  rw [nameOrStar_append hu]
  cases nameOrStar? s with
  | none => rfl
  | some found =>
    obtain ⟨first, rest⟩ := found
    simp only [Continued, Option.map_some, Option.bind_eq_bind, Option.bind_some]
    by_cases hrest : rest.head? = some '|'
    · obtain ⟨rest, rfl⟩ := List.head?_eq_some_iff.mp hrest
      simp only [List.cons_append, nameOrStar_append hu]
      cases nameOrStar? rest <;> rfl
    · obtain ⟨c, t, rfl, -, -, -, hbar⟩ := hu.head
      cases rest with
      | nil => simp [hbar]
      | cons x rest =>
        have hx : x ≠ '|' := fun hx => hrest (congrArg some hx)
        simp [hx]

omit hu in
theorem quoted_append {quote : Char} {value : String} (h : quoted? quote s = some (value, rest))
    (u : List Char) : quoted? quote (s ++ u) = some (value, rest ++ u) := by
  unfold quoted? at h ⊢
  split at h
  · cases h
  · rename_i q after hafter
    obtain ⟨rfl, rfl⟩ := Prod.mk.inj (Option.some.inj h)
    have hdrop : (s ++ u).dropWhile (· != quote) = q :: (after ++ u) := by
      rw [List.dropWhile_append, hafter]
      rfl
    have hlength : (s.takeWhile (· != quote)).length ≠ s.length := by
      have hsplit := congrArg List.length
        (List.takeWhile_append_dropWhile (p := (· != quote)) (l := s))
      rw [hafter, List.length_append, List.length_cons] at hsplit
      omega
    rw [hdrop, List.takeWhile_append, if_neg hlength]

theorem attributeValue_append {value : String} (h : attributeValue? s = some (value, rest)) :
    attributeValue? (s ++ u) = some (value, rest ++ u) := by
  unfold attributeValue? at h
  split at h
  · exact quoted_append h u
  · exact quoted_append h u
  · rename_i hdouble hsingle
    have hother : attributeValue? (s ++ u) = identifier? (s ++ u) := by
      cases s with
      | nil => cases h
      | cons c s =>
        rw [List.cons_append, attributeValue?]
        · rintro cs hcs
          exact hdouble s (by rw [(List.cons.inj hcs).1])
        · rintro cs hcs
          exact hsingle s (by rw [(List.cons.inj hcs).1])
    rw [hother, identifier_append hu, h]
    rfl

omit hu in
theorem comparison_append {comparison : Comparison} (h : comparison? s = some (comparison, rest))
    (u : List Char) : comparison? (s ++ u) = some (comparison, rest ++ u) := by
  unfold comparison? at h
  split at h <;> cases h <;> rfl

theorem attributeTest_append (h : attributeTest? s = some (token, rest)) :
    attributeTest? (s ++ u) = some (token, rest ++ u) := by
  unfold attributeTest? at h ⊢
  obtain ⟨⟨name, first⟩, hname, h⟩ := Option.bind_eq_some_iff.mp h
  obtain ⟨⟨comparison, second⟩, hcomparison, h⟩ := Option.bind_eq_some_iff.mp h
  obtain ⟨⟨value, third⟩, hvalue, h⟩ := Option.bind_eq_some_iff.mp h
  dsimp only at h hcomparison hvalue
  -- something is read behind all blanks inside of the brackets
  have hbefore : skipSpace s ≠ [] := fun hnil => by simp [hnil, qualifiedName?, nameOrStar?,
    identifier?] at hname
  have hfirst : skipSpace first ≠ [] := fun hnil => by simp [hnil, comparison?] at hcomparison
  have hsecond : skipSpace second ≠ [] := fun hnil => by
    simp [hnil, attributeValue?, identifier?] at hvalue
  have hthird : skipSpace third ≠ [] := fun hnil => by simp [hnil] at h
  simp only [skipSpace_append hbefore, qualifiedName_append hu, hname, skipSpace_append hfirst,
    comparison_append hcomparison, skipSpace_append hsecond, attributeValue_append hu hvalue,
    skipSpace_append hthird, Continued, Option.map_some, Option.bind_eq_bind, Option.bind_some]
  split at h
  · rename_i after hafter
    obtain ⟨rfl, rfl⟩ := Prod.mk.inj (Option.some.inj h)
    rw [hafter]
    rfl
  · cases h

theorem simpleToken_append (h : simpleToken? s = some (token, rest)) :
    simpleToken? (s ++ u) = some (token, rest ++ u) := by
  unfold simpleToken? at h
  split at h
  · obtain ⟨⟨word, after⟩, hword, he⟩ := Option.map_eq_some_iff.mp h
    cases he
    rw [List.cons_append, simpleToken?, identifier_append hu, hword]
    rfl
  · obtain ⟨⟨word, after⟩, hword, he⟩ := Option.map_eq_some_iff.mp h
    cases he
    rw [List.cons_append, simpleToken?, identifier_append hu, hword]
    rfl
  · exact attributeTest_append hu h
  · rename_i hhash hpoint hbracket
    obtain ⟨⟨name, after⟩, hname, he⟩ := Option.map_eq_some_iff.mp h
    cases he
    cases s with
    | nil => cases hname
    | cons c s =>
      rw [List.cons_append, simpleToken?, ← List.cons_append, qualifiedName_append hu, hname]
      · rfl
      · rintro cs hcs
        exact hhash s (by rw [(List.cons.inj hcs).1])
      · rintro cs hcs
        exact hpoint s (by rw [(List.cons.inj hcs).1])
      · rintro cs hcs
        exact hbracket s (by rw [(List.cons.inj hcs).1])

/-- A token is read alike in front of a cut. A sign at the end of the text takes the blanks of the
cut. -/
theorem token_append (h : token? s = some (token, rest))
    (hs : ∀ x ∈ s.getLast?, isBlank x = false) : ∃ rest', token? (s ++ u) = some (token, rest') ∧
      (rest' = rest ++ u ∨ rest = [] ∧ rest' = skipSpace u) := by
  have hsuffix : ∀ t, t <:+ s → t ≠ [] → skipSpace t ≠ [] := by
    rintro t ⟨before, rfl⟩ hne
    exact skipSpace_ne_nil hne fun x hx => hs x (by rwa [List.getLast?_append_of_ne_nil _ hne])
  -- what a sign is followed by
  have hsign : ∀ cs, cs <:+ s → skipSpace (cs ++ u) = skipSpace cs ++ u ∨
      skipSpace cs = [] ∧ skipSpace (cs ++ u) = skipSpace u := by
    intro cs hcs
    by_cases hne : cs = []
    · subst hne
      exact .inr ⟨rfl, rfl⟩
    · exact .inl (skipSpace_append (hsuffix cs hcs hne) u)
  have hne : s ≠ [] := by
    rintro rfl
    cases h
  have hskip := skipSpace_append (hsuffix s (List.suffix_refl s) hne) u
  unfold token? at h ⊢
  rw [hskip]
  split at h
  · rename_i cs hcs
    cases h
    rw [hcs]
    exact ⟨_, rfl, hsign cs ((List.suffix_cons _ cs).trans (hcs ▸ skipSpace_suffix s))⟩
  · rename_i cs hcs
    cases h
    rw [hcs]
    exact ⟨_, rfl, hsign cs ((List.suffix_cons _ cs).trans (hcs ▸ skipSpace_suffix s))⟩
  · rename_i hchild hcomma
    obtain ⟨c, cs, hcs⟩ := List.exists_cons_of_ne_nil (hsuffix s (List.suffix_refl s) hne)
    refine ⟨rest ++ u, ?_, .inl rfl⟩
    rw [hcs, List.cons_append]
    split
    · rename_i hcons
      exact absurd hcs ((List.cons.inj hcons).1 ▸ hchild cs)
    · rename_i hcons
      exact absurd hcs ((List.cons.inj hcons).1 ▸ hcomma cs)
    · have hlength : (c :: (cs ++ u)).length < (s ++ u).length ↔
          (skipSpace s).length < s.length := by
        rw [hcs, ← List.cons_append, List.length_append, List.length_append]
        omega
      split at h
      · rename_i hshorter
        cases h
        rw [if_pos (hlength.mpr hshorter), hcs]
        rfl
      · rename_i hshorter
        rw [if_neg (mt hlength.mp hshorter)]
        exact simpleToken_append hu h

end Cuts

/-- A text that is scanned token by token to its end, and where its tokens stand if the text starts
at an offset. -/
inductive ScansAt : Nat → List Char → List Placed → Prop
  | nil {offset : Nat} : ScansAt offset [] []
  | cons {offset : Nat} {s before rest : List Char} {token : Token} {placed : List Placed}
    (hs : s = before ++ rest) (h : token? s = some (token, rest))
    (ha : isAnyNamespace token = false) (hrest : ScansAt (offset + byteLength before) rest placed) :
    ScansAt offset s (⟨token, offset⟩ :: placed)

def Placed.shift (places : Nat) (next : Placed) : Placed :=
  { next with offset := next.offset + places }

theorem scansAt_nil : ScansAt offset [] placed ↔ placed = [] := by
  constructor
  · intro h
    cases h with
    | nil => rfl
    | cons _ h => cases h
  · rintro rfl
    exact .nil

theorem tokensFrom_nil (fuel offset : Nat) : tokensFrom selector fuel offset [] = .ok [] := by
  cases fuel <;> rfl

theorem tokensFrom_iff {fuel : Nat} (hfuel : s.length ≤ fuel) :
    tokensFrom selector fuel offset s = .ok placed ↔ ScansAt offset s placed := by
  induction fuel generalizing s offset placed with
  | zero =>
    obtain rfl := List.length_eq_zero_iff.mp (Nat.le_zero.mp hfuel)
    simp [scansAt_nil, tokensFrom_nil, eq_comm]
  | succ fuel ih =>
    cases s with
    | nil => simp [scansAt_nil, tokensFrom_nil, eq_comm]
    | cons c s =>
      -- the fuel lasts as every token takes a character
      have hread : ∀ {token rest}, token? (c :: s) = some (token, rest) → rest.length ≤ fuel ∧
          ∃ before, c :: s = before ++ rest ∧
            byteLength (c :: s) - byteLength rest = byteLength before := by
        intro token rest h
        obtain ⟨⟨before, hbefore⟩, hshorter⟩ := (token_eq_some h).left
        rw [List.length_cons] at hshorter hfuel
        refine ⟨by omega, before, hbefore.symm, ?_⟩
        rw [← hbefore, byteLength_append]
        omega
      rw [tokensFrom]
      constructor
      · intro h
        split at h
        · cases h
        · rename_i token rest htoken
          split at h
          · cases h
          · rename_i ha
            simp only [bind_eq_ok, pure, Except.pure, Except.ok.injEq] at h
            obtain ⟨more, hmore, rfl⟩ := h
            obtain ⟨hrest, before, hbefore, hlength⟩ := hread htoken
            rw [hlength] at hmore
            exact .cons hbefore htoken (by simpa using ha) ((ih hrest).mp hmore)
      · intro h
        cases h with
        | @cons _ _ before rest token more hs h ha hmore =>
          have hlength : byteLength (c :: s) - byteLength rest = byteLength before := by
            rw [hs, byteLength_append]
            omega
          have hplaced := (ih (hread h).1).mpr hmore
          simp [h, ha, hlength, hplaced, bind, Except.bind, pure, Except.pure]

theorem ScansAt.shift (h : ScansAt offset s placed) (places : Nat) :
    ScansAt (offset + places) s (placed.map (Placed.shift places)) := by
  induction h with
  | nil => exact .nil
  | cons hs h ha _ ih =>
    refine .cons hs h ha ?_
    rwa [Nat.add_right_comm] at ih

/-- The tokens of a selector without blanks around it are those of its text. -/
theorem tokenize_iff (h : Tight selector.toList) :
    tokenize selector = .ok placed ↔ ScansAt 0 selector.toList placed := by
  have hbody : trimEnd selector.toList = selector.toList := trimEnd_of_last h.2
  have hstart : trimStart selector.toList = selector.toList := trimStart_of_head h.1
  simp only [tokenize, hbody, hstart, Nat.sub_self]
  exact tokensFrom_iff (Nat.le_refl _)

def joiningSigns : List (Char × Token) := [('>', .child), (',', .comma)]

theorem mem_joiningSigns {sign : Char} {joint : Token} : (sign, joint) ∈ joiningSigns ↔
    sign = '>' ∧ joint = .child ∨ sign = ',' ∧ joint = .comma := by
  simp [joiningSigns]

section Joined

variable {sign : Char} {joint : Token} {w w' right : List Char} {placed' : List Placed}
  (hsign : (sign, joint) ∈ joiningSigns) (hw : ∀ c ∈ w, isSpace c = true)
  (hw' : ∀ c ∈ w', isSpace c = true) (hright : ∀ x ∈ right.head?, isBlank x = false)

include hsign hw

theorem skipSpace_sign (s : List Char) : skipSpace (w ++ sign :: s) = sign :: s := by
  rw [skipSpace_spaces hw]
  rcases mem_joiningSigns.mp hsign with ⟨rfl, -⟩ | ⟨rfl, -⟩ <;> rfl

theorem cuts_sign (s : List Char) : Cuts (w ++ sign :: s) := by
  cases w with
  | nil =>
    rcases mem_joiningSigns.mp hsign with ⟨rfl, -⟩ | ⟨rfl, -⟩ <;> exact ⟨_, s, rfl, by decide⟩
  | cons c w =>
    have hc : isSpace c = true := hw c List.mem_cons_self
    simp only [isSpace, Bool.or_eq_true, beq_iff_eq, or_assoc] at hc
    refine ⟨c, _, rfl, ?_⟩
    rcases hc with rfl | rfl | rfl | rfl <;> decide

include hw' hright

/-- A sign is read with the white space on both sides of it. -/
theorem token_sign : token? (w ++ sign :: (w' ++ right)) = some (joint, right) := by
  have hbehind : skipSpace (w' ++ right) = right := by
    rw [skipSpace_spaces hw', skipSpace_of_head hright]
  unfold token?
  rw [skipSpace_sign hsign hw]
  rcases mem_joiningSigns.mp hsign with ⟨rfl, rfl⟩ | ⟨rfl, rfl⟩ <;> simp [hbehind]

/-- A text, a sign and another text are scanned to the tokens of both with the token of the sign
between them. If the first text ends with a sign, that one takes the white space in front of the
second sign. -/
theorem ScansAt.append (h : ScansAt offset s placed) (hne : s ≠ [])
    (hs : ∀ x ∈ s.getLast?, isBlank x = false)
    (h' : ScansAt (offset + byteLength (s ++ (w ++ sign :: w'))) right placed') :
    ∃ place, offset + byteLength s ≤ place ∧ place ≤ offset + byteLength (s ++ w) ∧
      ScansAt offset (s ++ (w ++ sign :: (w' ++ right))) (placed ++ ⟨joint, place⟩ :: placed') := by
  have hany : isAnyNamespace joint = false := by
    rcases mem_joiningSigns.mp hsign with ⟨-, rfl⟩ | ⟨-, rfl⟩ <;> rfl
  induction h with
  | nil => exact absurd rfl hne
  | @cons offset s before rest token placed hsplit h ha hrest ih =>
    obtain ⟨rest', hread, hbehind⟩ := token_append (cuts_sign hsign hw (w' ++ right)) h hs
    by_cases hend : rest = []
    · -- the last token of the first text
      subst hend
      obtain rfl := scansAt_nil.mp hrest
      obtain rfl : s = before := by simpa using hsplit
      rcases hbehind with rfl | ⟨-, rfl⟩
      · refine ⟨offset + byteLength s, Nat.le_refl _, ?_, .cons rfl hread ha ?_⟩
        · rw [byteLength_append]
          omega
        · have hjoint := token_sign hsign hw hw' hright
          refine .cons (show _ = (w ++ sign :: w') ++ right by simp) hjoint hany ?_
          rwa [Nat.add_assoc, ← byteLength_append]
      · -- the last token takes the white space in front of the sign
        rw [skipSpace_sign hsign hw] at hread
        refine ⟨offset + byteLength (s ++ w), ?_, Nat.le_refl _,
          .cons (show _ = (s ++ w) ++ (sign :: w' ++ right) by simp) hread ha ?_⟩
        · rw [byteLength_append]
          omega
        · have hspaces : ∀ c ∈ ([] : List Char), isSpace c = true := by simp
          refine .cons (show _ = (sign :: w') ++ right by simp)
            (token_sign hsign hspaces hw' hright) hany ?_
          rw [Nat.add_assoc, ← byteLength_append]
          simpa using h'
    · obtain rfl : rest' = rest ++ (w ++ sign :: (w' ++ right)) :=
        hbehind.resolve_right fun hnil => hend hnil.1
      have hlast : ∀ x ∈ rest.getLast?, isBlank x = false := fun x hx =>
        hs x (by rwa [hsplit, List.getLast?_append_of_ne_nil _ hend])
      -- the offsets of the rest count from the start of the whole text
      have hshift : ∀ t, offset + byteLength before + byteLength (rest ++ t) =
          offset + byteLength (s ++ t) := by
        intro t
        rw [hsplit, List.append_assoc, byteLength_append before, Nat.add_assoc]
      rw [← hshift] at h'
      obtain ⟨place, hfrom, hto, hscans⟩ := ih hend hlast h'
      have hwhole := hshift []
      rw [List.append_nil, List.append_nil] at hwhole
      rw [hwhole] at hfrom
      rw [hshift] at hto
      exact ⟨place, hfrom, hto, .cons (by rw [hsplit, List.append_assoc]) hread ha hscans⟩

end Joined

theorem Tight.append (h : Tight s) (h' : Tight t) (hs : s ≠ []) (ht : t ≠ []) (u : List Char) :
    Tight (s ++ (u ++ t)) := by
  refine ⟨fun x hx => h.1 x ?_, fun x hx => h'.2 x ?_⟩
  · rwa [List.head?_append_of_ne_nil _ hs] at hx
  · rwa [← List.append_assoc, List.getLast?_append_of_ne_nil _ ht] at hx

section Tokens

variable {left right : String} {sign : Char} {joint : Token} {w w' : List Char}
  {placed' : List Placed}

theorem Tight.joined (hl : Tight left.toList) (hr : Tight right.toList) (hne : left ≠ "")
    (hne' : right ≠ "") (u : List Char) : Tight (left ++ String.ofList u ++ right).toList := by
  simpa using hl.append hr (by simpa using hne) (by simpa using hne') u

theorem ScansAt.joined (hl : Tight left.toList) (hr : Tight right.toList) (hne : left ≠ "")
    (hne' : right ≠ "") (hsign : (sign, joint) ∈ joiningSigns) (hw : ∀ c ∈ w, isSpace c = true)
    (hw' : ∀ c ∈ w', isSpace c = true) (h : tokenize left = .ok placed)
    (h' : tokenize right = .ok placed') :
    ∃ place, byteLength left.toList ≤ place ∧ place ≤ byteLength (left.toList ++ w) ∧
      ScansAt 0 (left ++ String.ofList (w ++ sign :: w') ++ right).toList
        (placed ++ ⟨joint, place⟩ ::
          placed'.map (Placed.shift (byteLength (left.toList ++ (w ++ sign :: w'))))) := by
  have hleft : left.toList ≠ [] := by simpa using hne
  have hright : right.toList ≠ [] := by simpa using hne'
  have hscans := ((tokenize_iff hr).mp h').shift (byteLength (left.toList ++ (w ++ sign :: w')))
  have hjoined := ((tokenize_iff hl).mp h).append hsign hw hw' hr.1 hleft hl.2 hscans
  simpa using hjoined

/-- Two selectors that are joined by a sign have the tokens of both with that of the sign between
them. The tokens of the second one are as far behind their places as its text is. -/
theorem tokenize_joined (hl : Tight left.toList) (hr : Tight right.toList) (hne : left ≠ "")
    (hne' : right ≠ "") (hsign : (sign, joint) ∈ joiningSigns) (hw : ∀ c ∈ w, isSpace c = true)
    (hw' : ∀ c ∈ w', isSpace c = true) (h : tokenize left = .ok placed)
    (h' : tokenize right = .ok placed') :
    ∃ place, byteLength left.toList ≤ place ∧ place ≤ byteLength (left.toList ++ w) ∧
      tokenize (left ++ String.ofList (w ++ sign :: w') ++ right) = .ok (placed ++ ⟨joint, place⟩ ::
        placed'.map (Placed.shift (byteLength (left.toList ++ (w ++ sign :: w'))))) := by
  obtain ⟨place, hfrom, hto, hscans⟩ := ScansAt.joined hl hr hne hne' hsign hw hw' h h'
  exact ⟨place, hfrom, hto, (tokenize_iff (hl.joined hr hne hne' _)).mpr hscans⟩

/-- Signs between quotes are part of their token, and a sign at the end takes the white space behind
it. -/
theorem tokenize_joined_quoted :
    Tight "a[k='>, ']>".toList ∧ Tight ".b".toList ∧
      tokenize "a[k='>, ']>" = .ok [⟨.element ⟨none, "a"⟩, 0⟩,
        ⟨.attribute ⟨none, "k"⟩ .equals ">, ", 1⟩, ⟨.child, 10⟩] ∧
      tokenize ".b" = .ok [⟨.className "b", 0⟩] ∧
      ∃ place, 11 ≤ place ∧ place ≤ 12 ∧ tokenize "a[k='>, ']> ,\t.b" =
        .ok [⟨.element ⟨none, "a"⟩, 0⟩, ⟨.attribute ⟨none, "k"⟩ .equals ">, ", 1⟩, ⟨.child, 10⟩,
          ⟨.comma, place⟩, ⟨.className "b", 14⟩] := by
  have hl : Tight "a[k='>, ']>".toList := by decide +kernel
  have hr : Tight ".b".toList := by decide +kernel
  have h : tokenize "a[k='>, ']>" = .ok [⟨.element ⟨none, "a"⟩, 0⟩,
      ⟨.attribute ⟨none, "k"⟩ .equals ">, ", 1⟩, ⟨.child, 10⟩] := by decide +kernel
  have h' : tokenize ".b" = .ok [⟨.className "b", 0⟩] := by decide +kernel
  have htext : "a[k='>, ']>" ++ String.ofList ([' '] ++ ',' :: ['\t']) ++ ".b" =
      "a[k='>, ']> ,\t.b" := by decide +kernel
  have hlengths : byteLength "a[k='>, ']>".toList = 11 ∧
      byteLength ("a[k='>, ']>".toList ++ [' ']) = 12 ∧
      byteLength ("a[k='>, ']>".toList ++ ([' '] ++ ',' :: ['\t'])) = 14 := by decide +kernel
  obtain ⟨place, hfrom, hto, hjoined⟩ := tokenize_joined hl hr (by decide) (by decide)
    (mem_joiningSigns.mpr (.inr ⟨rfl, rfl⟩)) (show ∀ c ∈ [' '], isSpace c = true by simp [isSpace])
    (show ∀ c ∈ ['\t'], isSpace c = true by simp [isSpace]) h h'
  rw [hlengths.1] at hfrom
  rw [hlengths.2.1] at hto
  rw [htext, hlengths.2.2] at hjoined
  exact ⟨hl, hr, h, h', place, hfrom, hto, hjoined⟩

end Tokens

section Lists

variable {anchor : Anchor} {selector left right : String} {compiled compiled' : Compiled}
  {placed placed' : List Placed} {found found' : List Branch}

/-- What a selector is compiled to. -/
theorem compile_iff : compile anchor selector = .ok compiled ↔ ∃ placed found,
    tokenize selector = .ok placed ∧ Spells found (placed.map Placed.token) ∧
      compiled = ⟨found.map fun branch => String.ofList (emitBranch anchor branch)⟩ := by
  constructor
  · intro hc
    obtain ⟨placed, hplaced, -⟩ := bind_eq_ok.mp hc
    obtain ⟨found, hfound, rfl⟩ := compile_ok hc hplaced
    exact ⟨placed, found, hplaced, spells_branches hfound, rfl⟩
  · rintro ⟨placed, found, hplaced, hspells, rfl⟩
    have hne : placed.isEmpty = false := by simpa using hspells.tokens_ne_nil
    simp [compile, hplaced, hne, branches_iff_spells.mpr hspells, bind, Except.bind, pure,
      Except.pure]

theorem ne_empty_of_spells (h : tokenize selector = .ok placed)
    (hspells : Spells found (placed.map Placed.token)) : selector ≠ "" := by
  rintro rfl
  obtain rfl := Except.ok.inj h
  exact hspells.tokens_ne_nil rfl

/-- A list of two selectors is compiled to the branches of both. -/
theorem compile_list (hl : Tight left.toList) (hr : Tight right.toList)
    (h : compile anchor left = .ok compiled) (h' : compile anchor right = .ok compiled') :
    compile anchor (left ++ ", " ++ right) = .ok ⟨compiled.branches ++ compiled'.branches⟩ := by
  obtain ⟨placed, found, hplaced, hspells, rfl⟩ := compile_iff.mp h
  obtain ⟨placed', found', hplaced', hspells', rfl⟩ := compile_iff.mp h'
  have hne := ne_empty_of_spells hplaced hspells
  have hne' := ne_empty_of_spells hplaced' hspells'
  obtain ⟨place, -, -, hscans⟩ := ScansAt.joined hl hr hne hne'
    (mem_joiningSigns.mpr (.inr ⟨rfl, rfl⟩))
    (show ∀ c ∈ [], isSpace c = true by simp) (show ∀ c ∈ [' '], isSpace c = true by simp [isSpace])
    hplaced hplaced'
  have hjoined := (tokenize_iff (hl.joined hr hne hne' _)).mpr hscans
  refine compile_iff.mpr ⟨_, found ++ found', hjoined, ?_, by simp⟩
  have hshift : (placed'.map (Placed.shift (byteLength (left.toList ++ ([] ++ ',' :: [' ']))))).map
      Placed.token = placed'.map Placed.token := by simp [Placed.shift, Function.comp_def]
  rw [List.map_append, List.map_cons, hshift]
  exact hspells.append hspells'

end Lists

end MarkupQuery.Selector
