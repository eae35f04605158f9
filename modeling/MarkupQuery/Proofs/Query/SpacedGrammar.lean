import MarkupQuery.Proofs.Query.SpacedWords

namespace MarkupQuery.Query

open MarkupQuery.Text MarkupQuery.Page

def EndGap (k : List Bool) (v : List Char) : Prop := k.head? = some true → v.head? ≠ some ')'

def StepGap (k : List Bool) (v : List Char) : Prop := v.head? ≠ some '/' ∧ EndGap k v

def SlashGap (k : List Bool) (v : List Char) : Prop :=
  (∀ c ∈ v.head?, startsStep c = false) ∧ StepGap k v

namespace Spot

def awaits (k : List Bool) : Spot := ⟨Awaits k, False⟩

def steps (k : List Bool) (v : List Char) : Spot := ⟨Steps k, SlashGap k v⟩

def done (k : List Bool) (v : List Char) : Spot := ⟨Done k, StepGap k v⟩

def ended (k : List Bool) (v : List Char) : Spot := ⟨Done k, EndGap k v⟩

end Spot

variable {α : Type} {u v w s s' : List Char} {bound : Nat} {k : List Bool} {m : Mark} {c : Char}
  {S : Spot}

namespace Gap

variable (h : Gap u v w)

include h

theorem not_joins (hu : place u = .right k m) : ¬ Joins (.right k m) v := by
  have hloose := h.loose
  rw [hu] at hloose
  exact hloose rfl

theorem endGap (hu : place u = .right k m)
    (hm : m.endsStep = true ∨ m = .slash ∨ m = .opened) : EndGap k v :=
  fun hk hv => h.not_joins hu (.closed hm hk hv)

theorem stepGap (hu : place u = .right k m) (hm : m.endsStep = true) : StepGap k v :=
  ⟨fun hv => h.not_joins hu (.slashed hm hv), h.endGap hu (.inl hm)⟩

theorem slashGap (hu : place u = .right k .slash) : SlashGap k v := by
  refine ⟨?_, ?_, h.endGap hu (.inr (.inl rfl))⟩
  · have hnone : v.head?.any startsStep = false := by
      cases hany : v.head?.any startsStep with
      | false => rfl
      | true => exact absurd (Joins.stepped rfl hany) (h.not_joins hu)
    exact (Option.any_eq_false _ _).mp hnone
  · intro hv
    have hnone := h.extend_none hu '/' hv
    cases hnone

end Gap

section Relations

variable (h : Gap u v w)

include h

theorem near_done {P : Place → List Char → Prop} (hn : Near u v w (.of u P) s s')
    (hP : ∀ q t, P q t → ∃ m, q = .right k m ∧ m.endsStep = true ∧
      (m.isName = true → ∀ c ∈ t.head?, isNameChar c = false)) : Near u v w (.done k v) s s' := by
  refine hn.imp (fun q t hq => ?_) fun hq => ?_
  · obtain ⟨m, rfl, hm, hname⟩ := hP q t hq
    have hends : m.ends = true := by cases m <;> simp_all [Mark.ends, Mark.endsStep]
    exact done_right hends hname
  · obtain ⟨m, hu, hm, -⟩ := hP _ _ hq
    exact h.stepGap hu hm

theorem near_steps_of_slash (hn : Near u v w (.right u k .slash) s s') :
    Near u v w (.steps k v) s s' := by
  refine hn.imp ?_ h.slashGap
  rintro q t rfl
  exact steps_slash

theorem near_steps_of_marker (hn : Near u v w (.right u k .marker) s s') :
    Near u v w (.steps k v) s s' := by
  refine hn.imp ?_ fun hu => absurd (Joins.marked rfl) (h.not_joins hu)
  rintro q t rfl
  exact steps_marker

end Relations

section Skips

theorem skips_done : Skips (Done k) := fun _ _ _ hc h => h.skip hc

theorem skips_awaits : Skips (Awaits k) := fun _ _ _ hc h => h.skip hc

theorem skips_uncalled : Skips fun q _ => Enclosed k q ∧ q.last.isCall = false := by
  intro q c t hc h
  refine ⟨h.1.skip hc, ?_⟩
  rw [Place.after_of_blank h.1.quote (isBlank_of_isSpace c hc)]
  exact h.2

theorem skips_enclosed : Skips fun q _ => Enclosed k q := fun _ _ _ hc h => h.skip hc

end Skips

theorem SlashGap.head_ne (hg : SlashGap k v) (hc : startsStep c = true) : v.head? ≠ some c := by
  intro hv
  simp [hg.1 c hv] at hc

theorem SlashGap.no_name (hg : SlashGap k v) : ∀ c ∈ v.head?, isNameStart c = false := by
  intro c hc
  cases hstart : isNameStart c with
  | false => rfl
  | true => exact absurd hc (hg.head_ne (by simp [startsStep, hstart]))

section Steps

variable (h : Gap u v w)

include h

theorem agrees_stepName {text : String} (ht : IsPlain text) :
    Agrees (Near u v w) bound 1 (.steps k v) (.right u k (.name text.toList true)) (.word text)
      (.word text) :=
  agrees_name h ht (fun _ _ _ hstart hq => ⟨true, hq.name hstart, fun _ => rfl⟩) fun hg => hg.no_name

/-- The name of a node type. -/
theorem agrees_nodeType : Agrees (Near u v w) bound 1 (.steps k v)
    (.of u fun q _ => Enclosed k q ∧ q.last.isCall = false) nodeType nodeType := by
  refine .oneOf fun entry hentry => ?_
  have hplain : IsPlain entry.2 ∧ (Mark.name entry.2.toList true).isCall = false :=
    (show ∀ entry ∈ nodeTypeNames, IsPlain entry.2 ∧
      (Mark.name entry.2.toList true).isCall = false by decide) entry hentry
  refine .relax (agrees_stepName h hplain.1) fun _ _ hn => hn.weaken ?_
  rintro q t rfl
  exact ⟨⟨rfl, rfl⟩, hplain.2⟩

theorem agrees_close {b : Bool} (hc : c = ')' ∨ c = ']')
    (hb : ∀ q t, S.before q t → Enclosed (b :: k) q) (hg : S.gap → v.head? ≠ some c) :
    Agrees (Near u v w) bound 1 S ⟨Done k, True⟩ (.char c) (.char c) := by
  have hspace : isSpace c = false := by rcases hc with rfl | rfl <;> decide
  refine .relax (agrees_char h hspace (fun q t hq => (hb q _ hq).close hc) hg) fun _ _ hn =>
    hn.imp ?_ fun _ => trivial
  rintro q t rfl
  exact done_right rfl nofun

/-- The end of brackets with white space around. -/
theorem agrees_spacedClose {b : Bool} (hc : c = ')' ∨ c = ']') (hS : Skips S.before)
    (hb : ∀ q t, S.before q t → Enclosed (b :: k) q) :
    Agrees (Near u v w) bound 1 S (.done k v) (.spaced (.char c)) (.spaced (.char c)) :=
  .relax (agrees_spaced h hS (T := ⟨Done k, True⟩) skips_done (agrees_close h hc hb nofun))
    fun _ _ hn => hn.imp (fun _ _ hq => hq) nofun

theorem agrees_typeTest :
    Agrees (Near u v w) bound 1 (.steps k v) (.done k v) typeTest typeTest := by
  have hopen : Agrees (Near u v w) (bound - 1) 1
      (.of u fun q _ => Enclosed k q ∧ q.last.isCall = false) ⟨fun q _ => Enclosed (false :: k) q, False⟩
      (.spaced (.char '(')) (.spaced (.char '(')) := by
    refine agrees_spaced h skips_uncalled (T := .of u fun q _ => Enclosed (false :: k) q)
      skips_enclosed ?_
    have hafter : ∀ q, Enclosed k q ∧ q.last.isCall = false →
        q.after '(' = .right (false :: k) .opened := fun q hq => hq.2 ▸ hq.1.parenthesis
    refine .relax (agrees_char h (by decide) (fun q _ => hafter q) nofun) fun _ _ hn =>
      hn.weaken ?_
    rintro q t rfl
    exact ⟨rfl, rfl⟩
  exact .mono (.map _ (.both (agrees_nodeType h) (.both hopen
    (agrees_spacedClose h (.inl rfl) skips_enclosed fun _ _ hq => hq)))) (by omega) (Nat.le_refl _)

/-- Behind a name directly comes a qualified star. -/
theorem agrees_anyInTest :
    Agrees (Near u v w) bound 1 (.steps k v) (.done k v) anyInTest anyInTest := by
  have hstar : Agrees (Near u v w) (bound - 1) 1 (.of u (NameEnd k)) (.right u k (.star true))
      (.word ":*") (.word ":*") := by
    refine agrees_word h (show ":*".toList = [':', '*'] from rfl) (by simp [isSpace]) ?_ ?_
    · rintro q t ⟨⟨text, rfl⟩, -⟩
      exact ⟨.colon text true, _, Place.after_of_extends rfl rfl rfl, rfl, fun _ => rfl⟩
    · rintro ⟨⟨text, hu⟩, -⟩ ⟨x, rfl⟩
      exact (h.name_ends hu ':' rfl).2 rfl
  have hname : Agrees (Near u v w) bound 1 (.steps k v) (.of u (NameEnd k)) plainName plainName :=
    agrees_plainName h (fun _ c _ hstart hq => ⟨[c], hq.name hstart⟩) fun hg => hg.no_name
  refine (Agrees.map (fun read : String × Unit => NodeTest.anyIn read.1) (.both hname hstar)).mono
    (by omega) (Nat.le_refl _) |>.relax fun _ _ hn => near_done h hn ?_
  rintro q t rfl
  exact ⟨_, rfl, rfl, fun hname => absurd hname Bool.false_ne_true⟩

theorem agrees_nodeTest :
    Agrees (Near u v w) bound 1 (.steps k v) (.done k v) nodeTest nodeTest := by
  have hstar : Agrees (Near u v w) bound 1 (.steps k v) (.done k v) (.char '*') (.char '*') := by
    refine .relax (agrees_char h (by decide) (fun _ _ hq => hq.star) fun hg => hg.head_ne rfl)
      fun _ _ hn => near_done h hn ?_
    rintro q t rfl
    exact ⟨_, rfl, rfl, nofun⟩
  have hname : Agrees (Near u v w) bound 1 (.steps k v) (.done k v) qualifiedName qualifiedName := by
    refine .relax (agrees_qualifiedName h (fun _ _ hq => hq) fun hg => hg.no_name)
      fun _ _ hn => near_done h hn ?_
    rintro q t ⟨⟨text, rfl⟩, hends⟩
    exact ⟨_, rfl, rfl, fun _ => hends⟩
  exact .orElse (.map _ hstar) <| .orElse (agrees_typeTest h) <|
    .orElse (agrees_anyInTest h) (.map _ hname)

/-- An axis with its colons, directly behind one another. -/
theorem agrees_axis : Agrees (Near u v w) bound 0 (.steps k v) (.steps k v) axis axis := by
  have hname : Agrees (Near u v w) bound 1 (.steps k v)
      (.of u fun q _ => ∃ text, q = .right k (.name text true)) axisName axisName := by
    refine .oneOf fun entry hentry => ?_
    have hplain : IsPlain entry.2 :=
      (show ∀ entry ∈ axisNames, IsPlain entry.2 by decide) entry hentry
    exact .relax (agrees_stepName h hplain) fun _ _ hn =>
      hn.weaken fun _ _ hq => ⟨_, hq⟩
  have hcolons : Agrees (Near u v w) (bound - 1) 1
      (.of u fun q _ => ∃ text, q = .right k (.name text true)) (.right u k .marker)
      (.word "::") (.word "::") := by
    refine agrees_word h (show "::".toList = [':', ':'] from rfl) (by simp [isSpace]) ?_ ?_
    · rintro q t ⟨text, rfl⟩
      exact ⟨.colon text true, _, Place.after_of_extends rfl rfl rfl, rfl, fun _ => rfl⟩
    · rintro ⟨text, hu⟩ hprefix
      exact h.not_joins hu (.colons hprefix)
  exact .weaken (.map _ (.both hname (hcolons.relax fun _ _ hn =>
    near_steps_of_marker h hn)))

theorem agrees_point {text : String} {cs : List Char} (ht : text.toList = '.' :: cs)
    (hcs : Mark.point.run cs = some .point) (hspace : ∀ d ∈ '.' :: cs, isSpace d = false) :
    Agrees (Near u v w) bound 1 (.steps k v) (.done k v) (.word text) (.word text) := by
  have hword : Agrees (Near u v w) bound 1 (.steps k v) (.right u k .point) (.word text)
      (.word text) := by
    refine agrees_word h ht hspace (fun _ _ hq => ⟨_, _, hq.point, hcs, fun _ => rfl⟩) ?_
    rintro hg ⟨x, rfl⟩
    exact hg.head_ne (c := '.') rfl rfl
  refine hword.relax fun _ _ hn => near_done h hn ?_
  rintro q t rfl
  exact ⟨_, rfl, rfl, nofun⟩

theorem agrees_stepHead :
    Agrees (Near u v w) bound 1 (.steps k v) (.done k v) stepHead stepHead := by
  have hat : Agrees (Near u v w) bound 1 (.steps k v) (.steps k v) (.char '@') (.char '@') :=
    .relax (agrees_char h (by decide) (fun _ _ hq => hq.marker) fun hg => hg.head_ne rfl)
      fun _ _ hn => near_steps_of_marker h hn
  have htwo : "..".toList = ['.', '.'] := rfl
  have hone : ".".toList = ['.'] := rfl
  exact .orElse (.map _ (agrees_point h htwo rfl (by simp [isSpace]))) <|
    .orElse (.map _ (agrees_point h hone rfl (by simp [isSpace]))) <|
    .orElse (.mono (.map _ (.both hat (agrees_nodeTest h))) (by omega) (Nat.le_refl _)) <|
    .mono (.map _ (.both (.optional (agrees_axis h)) (agrees_nodeTest h))) (by omega)
      (Nat.le_refl _)

end Steps

theorem axis_of_operatorName {name : String} (hname : name ∈ operatorNames) (s : List Char) :
    axis (name.toList ++ s) = none := by
  have hnone : axisName (name.toList ++ s) = none := by
    refine oneOf_eq_none fun entry hentry => ?_
    obtain ⟨hlength, hnot⟩ := (show ∀ name ∈ operatorNames, ∀ entry ∈ axisNames,
      name.toList.length ≤ entry.2.toList.length ∧ ¬ name.toList <+: entry.2.toList by
        decide) name hname entry hentry
    by_contra hsome
    obtain ⟨⟨_, r⟩, hword⟩ := Option.ne_none_iff_exists'.mp hsome
    exact hnot (List.prefix_of_prefix_length_le (List.prefix_append _ s)
      ⟨r, (eq_append_of_word hword).symm⟩ hlength)
  simp [axis, Reader.map, Reader.both, hnone]

/-- A step begins with a star, and with the name of an operator. -/
theorem step_ne_none (hs : s.head? = some '*' ∨ ∃ name ∈ operatorNames, name.toList <+: s) :
    step expression s ≠ none := by
  rcases hs with hs | ⟨name, hname, x, rfl⟩
  · obtain ⟨s, rfl⟩ := List.head?_eq_some_iff.mp hs
    have hhead := stepHead_of_nodeTest (s := '*' :: s) rfl (.inr rfl)
      (axis_of_no_start (by simp; decide)) (show nodeTest ('*' :: s) = some (.any, s) by
        simp [nodeTest, Reader.orElse, Reader.map, Reader.char])
    obtain ⟨es, r, hmany⟩ := exists_many (predicate expression) s
    rw [show step expression ('*' :: s) = some (.mk .child .any es, r) from
      map_eq_some.mpr ⟨_, both_eq_some.mpr ⟨s, hhead, hmany⟩, rfl⟩]
    simp
  · obtain ⟨c, cs, htext, hstart, -⟩ := (isPlain_operatorName name hname).eq_cons
    have haxis := axis_of_operatorName hname x
    rw [htext, List.cons_append] at haxis ⊢
    exact step_of_start hstart haxis

section Nested

variable (h : Gap u v w)
  (hn : ∀ k, Agrees (Near u v w) (bound - 1) 0 (.awaits k) (.ended k v) expression expression)

include h hn

theorem agrees_predicate :
    Agrees (Near u v w) bound 1 (.done k v) (.done k v) (predicate expression)
      (predicate expression) := by
  have hopen : Agrees (Near u v w) bound 1 (.done k v) (.awaits (false :: k))
      (.spaced (.char '[')) (.spaced (.char '[')) := by
    refine agrees_spaced h skips_done (T := ⟨Awaits (false :: k), True⟩) skips_awaits ?_
    refine .relax (agrees_char h (by decide) (fun _ _ hq => hq.bracket) nofun)
      fun _ _ hn => hn.imp ?_ fun _ => trivial
    rintro q t rfl
    exact awaits_right rfl rfl
  exact .mono (.map _ (.both hopen (.both (hn (false :: k))
    (agrees_spacedClose h (.inr rfl) skips_done fun _ _ hq => hq.toEnclosed)))) (by omega)
    (Nat.le_refl _)

theorem agrees_step :
    Agrees (Near u v w) bound 1 (.steps k v) (.done k v) (step expression) (step expression) :=
  .map _ (.both (agrees_stepHead h) (.rest (.many (agrees_predicate h hn)) 1))

omit hn in
theorem agrees_slash (hb : ∀ q t, S.before q t → Enclosed k q) (hg : S.gap → v.head? ≠ some '/') :
    Agrees (Near u v w) bound 1 S (.right u k .slash) (.char '/') (.char '/') :=
  agrees_char h (by decide) (fun q t hq => (hb q _ hq).slash) hg

omit hn in
theorem agrees_slashes (hb : ∀ q t, S.before q t → Enclosed k q) (hg : S.gap → v.head? ≠ some '/') :
    Agrees (Near u v w) bound 1 S (.right u k .slash) (.word "//") (.word "//") := by
  refine agrees_word h (show "//".toList = ['/', '/'] from rfl) (by simp [isSpace])
    (fun q t hq => ⟨_, _, (hb q _ hq).slash, rfl, fun _ => rfl⟩) fun hgap hprefix => ?_
  obtain ⟨x, rfl⟩ := hprefix
  exact hg hgap rfl

theorem agrees_slashStep : Agrees (Near u v w) bound 1 (.done k v) (.done k v)
    (slashStep expression) (slashStep expression) := by
  have hslash : Agrees (Near u v w) bound 1 (.done k v) (.steps k v)
      (.orElse (.map (fun _ => [Step.anywhereBelow]) (.word "//")) (.map (fun _ => []) (.char '/')))
      (.orElse (.map (fun _ => [Step.anywhereBelow]) (.word "//")) (.map (fun _ => []) (.char '/'))) :=
    .relax (.orElse (.map _ (agrees_slashes h (fun _ _ hq => hq.toEnclosed) And.left))
      (.map _ (agrees_slash h (fun _ _ hq => hq.toEnclosed) And.left))) fun _ _ =>
      near_steps_of_slash h
  exact .mono (.map _ (.both hslash (.rest (agrees_step h hn) 1))) (by omega) (Nat.le_refl _)

theorem agrees_slashSteps : Agrees (Near u v w) bound 0 (.done k v) (.done k v)
    (slashSteps expression) (slashSteps expression) := .map _ (.many (agrees_slashStep h hn))

/-- A slash may stand alone, unless a step follows it directly. -/
theorem agrees_loneSlash : Agrees (Near u v w) bound 0 (.right u k .slash) (.done k v)
    (.optional (step expression)) (.optional (step expression)) := by
  refine ((agrees_step h hn).restrict fun _ _ => near_steps_of_slash h).optionalTo
    fun s s' hr hnone => ?_
  cases hr with
  | same => exact .same s
  | @before read t hu ht hplace =>
    have hplace : place read = .right k .slash := hplace
    refine .before hu ht (hplace ▸ ⟨rests_right nofun, .inr rfl, fun _ _ => ⟨fun hstar => ?_, ?_⟩⟩)
    · refine step_ne_none (.inl ?_) hnone
      rw [List.head?_append_of_ne_nil _ ht, hstar]
    · exact fun name hname hprefix => step_ne_none
        (.inr ⟨name, hname, hprefix.trans (List.prefix_append t v)⟩) hnone
  | gap hu => exact .gap (h.slashGap hu).2

theorem agrees_absolutePath : Agrees (Near u v w) bound 0 (.awaits k) (.done k v)
    (absolutePath expression) (absolutePath expression) := by
  intro s s' hs hs' hr
  have htwo : Agrees (Near u v w) bound 1 (.awaits k) (.right u k .slash) (.word "//")
      (.word "//") := agrees_slashes h (fun _ _ hq => hq.toEnclosed) nofun
  have hsame := htwo s s' hs hs' hr
  unfold absolutePath
  generalize Reader.word "//" s = x at hsame
  generalize Reader.word "//" s' = x' at hsame
  cases hsame with
  | none =>
    have hone : Agrees (Near u v w) bound 1 (.awaits k) (.right u k .slash) (.char '/') (.char '/') :=
      agrees_slash h (fun _ _ hq => hq.toEnclosed) False.elim
    exact Agrees.weaken (.map _ (.both hone
      (.rest (.both (agrees_loneSlash h hn) (agrees_slashSteps h hn)) 1))) s s' hs hs' hr
  | @some a r r' hr hl hl' =>
    have hmore := Agrees.map
      (fun steps : Step × List Step => Expr.absolute (Step.anywhereBelow :: steps.1 :: steps.2))
      (.both (agrees_step h hn) (.rest (agrees_slashSteps h hn) 1)) r r' (by omega)
      (by omega) (near_steps_of_slash h hr)
    exact (hmore.of_rest hl hl').mono (Nat.zero_le _)

theorem agrees_relativePath : Agrees (Near u v w) bound 0 (.awaits k) (.done k v)
    (relativePath expression) (relativePath expression) := by
  have hsteps : Agrees (Near u v w) bound 0 (.steps k v) (.done k v) (relativePath expression)
      (relativePath expression) :=
    .weaken (.map _ (.both (agrees_step h hn) (.rest (agrees_slashSteps h hn) 1)))
  exact hsteps.restrict fun _ _ hr => hr.imp (fun _ _ hq => hq.steps) False.elim

theorem agrees_locationPath : Agrees (Near u v w) bound 0 (.awaits k) (.done k v)
    (locationPath expression) (locationPath expression) := by
  intro s s' hs hs' hr
  have hhead : s.head? = s'.head? := by
    cases hr with
    | same => rfl
    | before _ ht _ => rw [List.head?_append_of_ne_nil _ ht, List.head?_append_of_ne_nil _ ht]
    | gap hg => exact hg.elim
  by_cases hone : s.head? = some '/'
  · rw [locationPath_of_slash hone, locationPath_of_slash (hhead ▸ hone)]
    exact agrees_absolutePath h hn s s' hs hs' hr
  · rw [locationPath_of_no_slash hone, locationPath_of_no_slash (hhead ▸ hone)]
    exact agrees_relativePath h hn s s' hs hs' hr

end Nested

end MarkupQuery.Query
