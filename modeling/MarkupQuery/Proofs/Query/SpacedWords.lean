import MarkupQuery.Proofs.Query.Gaps

namespace MarkupQuery.Query

open MarkupQuery.Text MarkupQuery.Page

variable {α : Type} {u v w s s' t x read : List Char} {bound taken : Nat} {k : List Bool}
  {m m' : Mark} {c : Char} {S : Spot} {p : Reader α}

theorem plainName_of_no_start (hs : ∀ c ∈ s.head?, isNameStart c = false) : plainName s = none := by
  cases s with
  | nil => rfl
  | cons c s => simp [plainName, hs c rfl]

theorem wholeWord_eq (text : String) (s : List Char) : wholeWord text s =
    Reader.word text s >>= fun (u, r) => if r.head?.any isNameChar then none else some (u, r) := by
  unfold wholeWord
  cases Reader.word text s with
  | none => rfl
  | some found =>
    obtain ⟨_, r⟩ := found
    cases r <;> rfl

theorem stringLiteral_append {d : Char} {inner rest : List Char} (hd : d = '\'' ∨ d = '"')
    (hinner : ∀ c ∈ inner, c ≠ d) : stringLiteral (d :: (inner ++ d :: rest)) =
      some (String.ofList inner, rest) := by
  have hpos : ∀ c ∈ inner, (c != d) = true := by simpa using hinner
  simp [stringLiteral, hd, List.takeWhile_append_of_pos hpos, List.dropWhile_append_of_pos hpos]

/-- A steady reader leaves no more than it starts with. -/
theorem length_of_steady
    (hp : ∀ {bound depth : Nat} {R : Nesting → List Char → List Char → Prop}, Twins R →
      Steady R bound taken (depth + 1) (depth + 1) p p) (t : List Char) (a : α) (r : List Char)
    (hread : p t = some (a, r)) : r.length + taken ≤ t.length := by
  have hsteady : Steady (fun _ s s' => s = s') (t.length + 1) taken 1 1 p p := hp twins_eq
  have hsame := hsteady t t (Nat.lt_succ_self _) (Nat.lt_succ_self _) rfl
  rw [hread] at hsame
  cases hsame with
  | some _ hl => exact hl

section Words

variable (h : Gap u v w)

include h

theorem agrees_char (hspace : isSpace c = false)
    (hafter : ∀ q t, S.before q (c :: t) → q.after c = .right k m)
    (hgap : S.gap → v.head? ≠ some c) :
    Agrees (Near u v w) bound 1 S (.right u k m) (.char c) (.char c) := by
  refine agrees_of ?_ ?_ fun hg => ⟨char_of_head_ne (hgap hg), char_of_head_ne (h.head_ne hspace)⟩
  · intro t _ r hread
    rw [char_eq_some.mp hread, List.length_cons]
  · intro read s hu hs hb
    obtain ⟨d, s, rfl⟩ := List.exists_cons_of_ne_nil hs
    by_cases hd : d = c
    · subst hd
      have hplace : place (read ++ [d]) = .right k m := by
        rw [place_append]
        exact hafter _ s hb
      have hnear : Near u v w (.right u k m) (s ++ v) (s ++ (w ++ v)) :=
        .right (by rw [hu, List.append_assoc, List.singleton_append]) hplace
      simpa [Reader.char] using Same.some hnear (Nat.le_refl _) (Nat.le_refl _)
    · simp only [List.cons_append, Reader.char, hd, if_false]
      exact .none

/-- No word lies across the gap: the token in front of it would go on. -/
theorem word_across {text : String} {cs : List Char} (ht : text.toList = c :: cs)
    (hspace : ∀ d ∈ c :: cs, isSpace d = false)
    (hrun : ∃ m₀, (place read).after c = .right k m₀ ∧ m₀.run cs = some m)
    (hu : u = read ++ s) (hs : s.head? = some c) (hnot : ¬ c :: cs <+: s) (hx : x = v ∨ x = w ++ v) :
    Reader.word text (s ++ x) = none := by
  obtain ⟨s, rfl⟩ := List.head?_eq_some_iff.mp hs
  have hprefix : ¬ c :: cs <+: c :: s ++ x := by
    intro hprefix
    obtain hle | hle := Nat.le_total (c :: cs).length (c :: s).length
    · exact hnot (List.prefix_of_prefix_length_le hprefix (List.prefix_append _ _) hle)
    obtain ⟨t, htext⟩ := List.prefix_of_prefix_length_le (List.prefix_append (c :: s) x) hprefix hle
    -- the word would have to go on behind `s`, where the gap allows no more of it
    cases t with
    | nil =>
      rw [List.append_nil] at htext
      exact hnot (htext ▸ List.prefix_rfl)
    | cons d t =>
      have hd : x.head? = some d := by
        rw [← htext, List.prefix_append_right_inj] at hprefix
        obtain ⟨y, rfl⟩ := hprefix
        rfl
      obtain ⟨m₀, hafter, hrun⟩ := hrun
      have hcs : cs = s ++ d :: t := (List.cons.inj htext.symm).2
      rw [hcs, Mark.run_append] at hrun
      obtain ⟨m₁, hm₁, hrun⟩ := Option.bind_eq_some_iff.mp hrun
      obtain ⟨m₂, hm₂, -⟩ := Option.bind_eq_some_iff.mp hrun
      have hplace : place u = .right k m₁ := by
        rw [hu, place_append, Place.behind_cons, hafter, Place.behind_of_run hm₁]
      rcases hx with rfl | rfl
      · have hnone := h.extend_none hplace d hd
        rw [hm₂] at hnone
        cases hnone
      · refine absurd (h.head_space d hd) ?_
        rw [Bool.not_eq_true, hspace d]
        rw [← htext]
        simp
  simpa [Reader.word, afterStart?, ht] using hprefix

/-- A word is one token, or a part of one. -/
theorem agrees_word {text : String} {cs : List Char} (ht : text.toList = c :: cs)
    (hspace : ∀ d ∈ c :: cs, isSpace d = false)
    (hrun : ∀ q t, S.before q (c :: t) → ∃ m₀ m', q.after c = .right k m₀ ∧ m₀.run cs = some m' ∧
      (c :: cs <+: c :: t → m' = m))
    (hgap : S.gap → ¬ c :: cs <+: v) :
    Agrees (Near u v w) bound 1 S (.right u k m) (.word text) (.word text) := by
  have hhead : text.toList.head? = some c := by
    rw [ht]
    rfl
  refine agrees_of ?_ ?_ fun hg => ⟨?_, word_of_head_ne hhead (h.head_ne (hspace c (by simp)))⟩
  · intro t _ r hread
    rw [eq_append_of_word hread, List.length_append, ht, List.length_cons]
    omega
  · intro read s hu hs hb
    by_cases hfirst : s.head? = some c
    · -- the word is read in front of the gap, or it is not read at all
      by_cases hprefix : c :: cs <+: s
      · obtain ⟨t, rfl⟩ := hprefix
        obtain ⟨m₀, m', hafter, hm, hmark⟩ := hrun _ (cs ++ t) hb
        obtain rfl := hmark (List.prefix_append (c :: cs) t)
        have hplace : place (read ++ c :: cs) = .right k m' := by
          rw [place_append, Place.behind_cons, hafter, Place.behind_of_run hm]
        have hnear : Near u v w (.right u k m') (t ++ v) (t ++ (w ++ v)) :=
          .right (by rw [hu, List.append_assoc]) hplace
        have hword : ∀ y, Reader.word text (c :: cs ++ t ++ y) = some ((), t ++ y) := fun y => by
          simp [Reader.word, afterStart?, ht]
        rw [hword, hword]
        exact .some hnear (by simp) (by simp)
      · obtain ⟨t, rfl⟩ := List.head?_eq_some_iff.mp hfirst
        obtain ⟨m₀, m', hafter, hm, -⟩ := hrun _ t hb
        rw [word_across h ht hspace ⟨m₀, hafter, hm⟩ hu rfl hprefix (.inl rfl),
          word_across h ht hspace ⟨m₀, hafter, hm⟩ hu rfl hprefix (.inr rfl)]
        exact .none
    · have hne : ∀ y, (s ++ y).head? ≠ some c := fun y => by
        rwa [List.head?_append_of_ne_nil _ hs]
      rw [word_of_head_ne hhead (hne v), word_of_head_ne hhead (hne (w ++ v))]
      exact .none
  · simpa [Reader.word, afterStart?, ht] using hgap hg

def NameEnd (k : List Bool) (q : Place) (s : List Char) : Prop :=
  (∃ text, q = .right k (.name text true)) ∧ ∀ c ∈ s.head?, isNameChar c = false

theorem agrees_plainName
    (hafter : ∀ q c t, isNameStart c = true → S.before q (c :: t) →
      ∃ text, q.after c = .right k (.name text true))
    (hgap : S.gap → ∀ c ∈ v.head?, isNameStart c = false) :
    Agrees (Near u v w) bound 1 S (.of u (NameEnd k)) plainName plainName := by
  refine agrees_of ?_ ?_ fun hg =>
    ⟨plainName_of_no_start (hgap hg), plainName_of_no_start fun c hc =>
      isNameStart_of_isSpace (h.head_space c hc)⟩
  · intro t first r hread
    obtain ⟨rfl, hplain, -⟩ := plainName_eq_some hread
    obtain ⟨c, hc, -⟩ := hplain.head []
    have hpos : 0 < first.toList.length := by
      rw [List.append_nil] at hc
      exact List.length_pos_of_mem (List.mem_of_mem_head? hc)
    rw [List.length_append]
    omega
  · intro read s hu hs hb
    obtain ⟨c, s, rfl⟩ := List.exists_cons_of_ne_nil hs
    cases hc : isNameStart c with
    | false =>
      rw [plainName_of_no_start (by simpa using hc), plainName_of_no_start (by simpa using hc)]
      exact .none
    | true =>
      obtain ⟨text, htext⟩ := hafter _ c s hc hb
      have hu' : u = (read ++ c :: s.takeWhile isNameChar) ++ s.dropWhile isNameChar := by
        rw [List.append_assoc, List.cons_append, List.takeWhile_append_dropWhile, hu]
      have hplace : place (read ++ c :: s.takeWhile isNameChar) =
          .right k (.name (text ++ s.takeWhile isNameChar) true) := by
        rw [place_append, Place.behind_cons, htext, Place.behind_of_run
          (Mark.run_name (fun d => List.mem_takeWhile_imp) text true)]
      -- a name that reaches the gap ends there without white space, too
      have hstop : s.dropWhile isNameChar = [] → ∀ d ∈ v.head?, isNameChar d = false := by
        intro hempty d hd
        rw [hempty, List.append_nil] at hu'
        exact (h.name_ends (hu' ▸ hplace) d hd).1
      have hread : ∀ y, y = v ∨ y = w ++ v → plainName (c :: s ++ y) =
          some (String.ofList (c :: s.takeWhile isNameChar), s.dropWhile isNameChar ++ y) := by
        intro y hy
        obtain ⟨htake, hdrop⟩ := h.span (fun _ => isNameChar_of_isSpace) hstop hy
        simp only [List.cons_append, plainName, hc, if_true, htake, hdrop]
      rw [hread v (.inl rfl), hread (w ++ v) (.inr rfl)]
      have hends : ∀ d ∈ (s.dropWhile isNameChar).head?, isNameChar d = false := by
        intro d hd
        have hnot := List.head?_dropWhile_not isNameChar s
        rw [Option.mem_def.mp hd] at hnot
        simpa using hnot
      have hl := (List.dropWhile_sublist (l := s) isNameChar).length_le
      exact .some (.intro hu' ⟨⟨_, hplace⟩, hends⟩) (by simpa using hl) (by simpa using hl)

/-- A colon comes behind a name in both texts or in neither. -/
theorem near_colon (hn : Near u v w (.of u (NameEnd k)) s s') :
    (∃ more more', s = ':' :: more ∧ s' = ':' :: more' ∧
      Near u v w (.of u fun q _ => ∃ text, q = .right k (.colon text true)) more more') ∨
    (∀ c ∈ s.head?, c ≠ ':') ∧ ∀ c ∈ s'.head?, c ≠ ':' := by
  cases hn with
  | same =>
    by_cases hs : s.head? = some ':'
    · obtain ⟨more, rfl⟩ := List.head?_eq_some_iff.mp hs
      exact .inl ⟨more, more, rfl, rfl, .same more⟩
    · have hne : ∀ c ∈ s.head?, c ≠ ':' := by
        rintro c hc rfl
        exact hs hc
      exact .inr ⟨hne, hne⟩
  | @before read t hu ht hend =>
    obtain ⟨c, t, rfl⟩ := List.exists_cons_of_ne_nil ht
    by_cases hc : c = ':'
    · subst hc
      obtain ⟨⟨text, hplace⟩, -⟩ := hend
      have hcolon : place (read ++ [':']) = .right k (.colon text true) := by
        rw [place_append, hplace]
        exact Place.behind_of_run rfl
      exact .inl ⟨t ++ v, t ++ (w ++ v), rfl, rfl, .intro (by simpa using hu) ⟨text, hcolon⟩⟩
    · exact .inr ⟨by simpa using hc, by simpa using hc⟩
  | gap hend =>
    obtain ⟨⟨text, hplace⟩, -⟩ := hend
    refine .inr ⟨fun c hc => (h.name_ends hplace c hc).2, ?_⟩
    rintro c hc rfl
    exact absurd (h.head_space ':' hc) (by decide)

/-- The name behind a colon is read on the same side of the gap as the colon. -/
theorem agrees_localName : Agrees (Near u v w) bound 1
    (.of u fun q _ => ∃ text, q = .right k (.colon text true)) (.of u (NameEnd k))
    plainName plainName := by
  refine agrees_plainName h ?_ ?_
  · rintro q c t hc ⟨text, rfl⟩
    exact ⟨text ++ [':', c], Place.after_of_extends rfl rfl (Mark.extend?_colon hc)⟩
  · rintro ⟨text, hplace⟩ c hc
    cases hstart : isNameStart c with
    | false => rfl
    | true =>
      have hnone := h.extend_none hplace c hc
      rw [Mark.extend?_colon hstart] at hnone
      cases hnone

theorem agrees_qualifiedName (hb : ∀ q t, S.before q t → Steps k q t)
    (hgap : S.gap → ∀ c ∈ v.head?, isNameStart c = false) :
    Agrees (Near u v w) bound 1 S (.of u (NameEnd k)) qualifiedName qualifiedName :=
  .qualifiedName (agrees_plainName h (fun _ c _ hc hq => ⟨[c], (hb _ _ hq).name hc⟩) hgap)
    (fun _ _ => near_colon h) (agrees_localName h)

/-- A name that is given is read as a word, an operand or an operator by its place. -/
theorem agrees_name {text : String} {operand : Bool} (ht : IsPlain text)
    (hafter : ∀ q c t, isNameStart c = true → S.before q (c :: t) →
      ∃ b, q.after c = .right k (.name [c] b) ∧ (text.toList <+: c :: t → b = operand))
    (hgap : S.gap → ∀ c ∈ v.head?, isNameStart c = false) :
    Agrees (Near u v w) bound 1 S (.right u k (.name text.toList operand)) (.word text)
      (.word text) := by
  obtain ⟨c, cs, htext, hstart, hcs⟩ := ht.eq_cons
  rw [htext] at hafter ⊢
  refine agrees_word h htext (fun d hd => ?_) (fun q t hq => ?_) fun hg hprefix => ?_
  · rw [← htext] at hd
    exact isSpace_of_isNameChar (ht.isNameChar d hd)
  · obtain ⟨b, hq, hb⟩ := hafter q c t hstart hq
    exact ⟨_, _, hq, Mark.run_name hcs [c] b, fun hprefix => hb hprefix ▸ rfl⟩
  · obtain ⟨x, rfl⟩ := hprefix
    simp [hgap hg c rfl] at hstart

/-- The name of an operator ends in both texts or in neither. -/
theorem near_operatorName {text : List Char}
    (hn : Near u v w (.right u k (.name text false)) s s') :
    s.head?.any isNameChar = s'.head?.any isNameChar ∧
      (s.head?.any isNameChar = false → Near u v w (.of u (Awaits k)) s s') := by
  cases hn with
  | same => exact ⟨rfl, fun _ => .same s⟩
  | @before read t hu ht hplace =>
    obtain ⟨d, t, rfl⟩ := List.exists_cons_of_ne_nil ht
    refine ⟨rfl, fun hd => ?_⟩
    have hawaits : Awaits k (.right k (.name text false)) (d :: t) :=
      ⟨rests_right fun _ => by simpa using hd, rfl⟩
    exact .before hu (List.cons_ne_nil d t) (hplace ▸ hawaits)
  | gap hplace =>
    have hv : v.head?.any isNameChar = false :=
      (Option.any_eq_false _ _).mpr fun c hc => (h.name_ends hplace c hc).1
    have hw : (w ++ v).head?.any isNameChar = false :=
      (Option.any_eq_false _ _).mpr fun c hc => isNameChar_of_isSpace (h.head_space c hc)
    have hawaits : Awaits k (.right k (.name text false)) [] := ⟨rests_right (by simp), rfl⟩
    exact ⟨hv.trans hw.symm, fun _ => .gap (show Awaits k (place u) [] from hplace ▸ hawaits)⟩

/-- The names of operators are words in places where no operand is expected. -/
theorem agrees_wholeWord {text : String} (ht : text ∈ operatorNames)
    (hb : ∀ q t, S.before q t → Done k q t) (hg : ¬ S.gap) :
    Agrees (Near u v w) bound 1 S (.of u (Awaits k)) (wholeWord text) (wholeWord text) := by
  have hplain : IsPlain text := isPlain_operatorName text ht
  have hword : Agrees (Near u v w) bound 1 S (.right u k (.name text.toList false)) (.word text)
      (.word text) :=
    agrees_name h hplain (fun q c t hstart hq => ⟨_, (hb q _ hq).name hstart, fun hprefix =>
      (hb q _ hq).expects (.inr ⟨text, ht, hprefix⟩)⟩) (absurd · hg)
  intro s s' hs hs' hn
  rw [wholeWord_eq, wholeWord_eq]
  refine (hword s s' hs hs' hn).bind fun a r r' _ _ hr hl hl' => ?_
  obtain ⟨hends, hnear⟩ := near_operatorName h hr
  dsimp only
  rw [← hends]
  cases hname : r.head?.any isNameChar with
  | true => exact .none
  | false => exact .some (hnear hname) hl hl'

/-- A string starts and ends on the same side of the gap. -/
theorem agrees_stringLiteral (hb : ∀ q t, S.before q t → Steps k q t) (hg : ¬ S.gap) :
    Agrees (Near u v w) bound 0 S (.right u k .literal) stringLiteral stringLiteral := by
  refine agrees_of (length_of_steady steady_stringLiteral) ?_ (absurd · hg)
  · intro read s hu hs hb'
    obtain ⟨d, s, rfl⟩ := List.exists_cons_of_ne_nil hs
    by_cases hd : d = '\'' ∨ d = '"'
    · have hquote := (hb _ _ hb').opensQuote hd
      by_cases hclose : d ∈ s
      · obtain ⟨inner, rest, rfl, hnot⟩ := List.eq_append_cons_of_mem hclose
        have hinner : ∀ c ∈ inner, c ≠ d := by
          rintro c hc rfl
          exact hnot hc
        have hread : ∀ y, stringLiteral (d :: (inner ++ d :: rest) ++ y) =
            some (String.ofList inner, rest ++ y) := fun y => by
          rw [List.cons_append, List.append_assoc, List.cons_append, stringLiteral_append hd hinner]
        have hplace : place (read ++ d :: (inner ++ [d])) = .right k .literal := by
          rw [place_append, Place.behind_cons, hquote, Place.behind_append,
            Place.behind_quoted rfl hinner]
          simp [Place.behind, Place.after, Place.right]
        have hnear : Near u v w (.right u k .literal) (rest ++ v) (rest ++ (w ++ v)) :=
          .right (by rw [hu]; simp) hplace
        rw [hread, hread]
        exact .some hnear (by simp; omega) (by simp; omega)
      · have hplace : (place u).quote = some d := by
          rw [hu, place_append, Place.behind_cons, hquote, Place.behind_quoted rfl]
          rintro c hc rfl
          exact hclose hc
        rw [h.unquoted] at hplace
        cases hplace
    · simp only [List.cons_append, stringLiteral, hd, if_false]
      exact .none

/-- No numeral goes on behind the gap. -/
theorem Gap.numeral_ends (hu : place u = .right k m) (hm : m = .number ∨ m = .point)
    (hx : x = v ∨ x = w ++ v) : ∀ c ∈ x.head?, c.isDigit = false ∧ c ≠ '.' := by
  intro c hc
  rcases hx with rfl | rfl
  · have hnone := h.extend_none hu c hc
    refine ⟨?_, ?_⟩
    · cases hdigit : c.isDigit with
      | false => rfl
      | true =>
        rw [Mark.extend?_digit hdigit hm] at hnone
        cases hnone
    · rintro rfl
      rcases hm with rfl | rfl <;> simp [Mark.extend?] at hnone
  · have hspace := h.head_space c hc
    refine ⟨?_, ?_⟩
    · cases hdigit : c.isDigit with
      | false => rfl
      | true =>
        have hname := isNameChar_of_isDigit hdigit
        rw [isNameChar_of_isSpace hspace] at hname
        cases hname
    · rintro rfl
      exact absurd hspace (by decide)

/-- A numeral with a point is on one side of the gap. -/
theorem same_numeral_fraction {whole fraction after : List Char}
    (hwhole : ∀ c ∈ whole, c.isDigit = true) (hfraction : ∀ c ∈ fraction, c.isDigit = true)
    (hafter : ∀ c ∈ after.head?, c.isDigit = false) (hs : s = whole ++ '.' :: (fraction ++ after))
    (hu : u = read ++ s) (hsteps : Steps k (place read) s) :
    Same (Near u v w) (.right u k .number) 0 (s ++ v) (s ++ (w ++ v)) (Number.numeral? (s ++ v))
      (Number.numeral? (s ++ (w ++ v))) := by
  subst hs
  obtain ⟨m, hm, hplace, hmark⟩ := hsteps.fraction hwhole hfraction
  rw [← place_append] at hplace
  have hread : ∀ y, y = v ∨ y = w ++ v →
      Number.numeral? (whole ++ '.' :: (fraction ++ after) ++ y) =
        if whole.isEmpty && fraction.isEmpty then none
        else some (Number.ofDigits whole fraction, after ++ y) := by
    intro y hy
    have hends : ∀ c ∈ (after ++ y).head?, c.isDigit = false := by
      intro c hc
      cases after with
      | nil =>
        rw [List.append_nil] at hu
        exact (h.numeral_ends (hu ▸ hplace) hm hy c hc).1
      | cons d after => exact hafter c hc
    have hne : y ≠ [] := by
      rcases hy with rfl | rfl
      · exact h.more
      · exact List.append_ne_nil_of_right_ne_nil w h.more
    have hmore : after ++ y ≠ [] := List.append_ne_nil_of_right_ne_nil after hne
    simpa using Number.numeral_fraction hwhole hfraction hends hmore
  rw [hread v (.inl rfl), hread (w ++ v) (.inr rfl)]
  split
  · exact .none
  · rename_i hsome
    have hnumber : m = .number := hmark (by simpa [or_iff_not_imp_left] using hsome)
    have hnear : Near u v w (.right u k .number) (after ++ v) (after ++ (w ++ v)) :=
      .right (by rw [hu]; simp) (hnumber ▸ hplace)
    exact .some hnear (by simp; omega) (by simp; omega)

/-- A numeral without a point is on one side of the gap. -/
theorem same_numeral_whole {whole rest : List Char} (hwhole : ∀ c ∈ whole, c.isDigit = true)
    (hrest : ∀ c ∈ rest.head?, c.isDigit = false ∧ c ≠ '.') (hs : s = whole ++ rest) (hne : s ≠ [])
    (hu : u = read ++ s) (hsteps : Steps k (place read) s) :
    Same (Near u v w) (.right u k .number) 0 (s ++ v) (s ++ (w ++ v)) (Number.numeral? (s ++ v))
      (Number.numeral? (s ++ (w ++ v))) := by
  subst hs
  have hplace : whole ≠ [] → place (read ++ whole) = .right k .number := fun hne => by
    rw [place_append, hsteps.digits hwhole hne]
  have hread : ∀ y, y = v ∨ y = w ++ v → Number.numeral? (whole ++ rest ++ y) =
      if whole.isEmpty then none else some (Number.ofDigits whole [], rest ++ y) := by
    intro y hy
    rw [List.append_assoc]
    refine Number.numeral_whole hwhole fun c hc => ?_
    cases rest with
    | nil =>
      rw [List.append_nil] at hu hne
      exact h.numeral_ends (hu ▸ hplace hne) (.inl rfl) hy c hc
    | cons d rest => exact hrest c hc
  rw [hread v (.inl rfl), hread (w ++ v) (.inr rfl)]
  split
  · exact .none
  · rename_i hsome
    have hnear : Near u v w (.right u k .number) (rest ++ v) (rest ++ (w ++ v)) :=
      .right (by rw [hu, List.append_assoc]) (hplace (by simpa using hsome))
    exact .some hnear (by simp) (by simp)

theorem agrees_numeral (hb : ∀ q t, S.before q t → Steps k q t) (hg : ¬ S.gap) :
    Agrees (Near u v w) bound 0 S (.right u k .number) Number.numeral? Number.numeral? := by
  refine agrees_of (length_of_steady steady_numeral) ?_ (absurd · hg)
  intro read s hu hne hb'
  rcases Number.digits_cases s with ⟨whole, fraction, after, hs, hwhole, hfraction, hafter⟩ |
    ⟨whole, rest, hs, hwhole, hrest⟩
  · exact same_numeral_fraction h hwhole hfraction hafter hs hu (hb _ _ hb')
  · exact same_numeral_whole h hwhole hrest hs hne hu (hb _ _ hb')

end Words

end MarkupQuery.Query
