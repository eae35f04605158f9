import MarkupQuery.Proofs.Query.Misreading
import MarkupQuery.Proofs.Query.WrittenPaths

namespace MarkupQuery.Query

open MarkupQuery.Text

variable {s t r text : List Char} {texts : List (List Char)} {c : Char} {word qualifier : String}
  {st : Step}

section Names

theorem orElse_ne_none {α : Type} {p q : Reader α} (h : q s ≠ none) : Reader.orElse p q s ≠ none := by
  unfold Reader.orElse
  split
  · simp
  · exact h

/-- Where a name begins, some node test can be read. -/
theorem nodeTest_of_start (hc : isNameStart c = true) (s : List Char) : nodeTest (c :: s) ≠ none := by
  refine orElse_ne_none (orElse_ne_none (orElse_ne_none ?_))
  have hname : qualifiedName (c :: s) ≠ none := by
    simp only [qualifiedName, plainName, hc, if_true, bind, Option.bind]
    split
    · split <;> simp
    · simp
  simpa [Reader.map] using hname

theorem step_of_start (hc : isNameStart c = true) (haxis : axis (c :: s) = none) :
    step expression (c :: s) ≠ none := by
  obtain ⟨⟨test, t⟩, htest⟩ := Option.ne_none_iff_exists'.mp (nodeTest_of_start hc s)
  have hhead := stepHead_of_nodeTest rfl (.inl hc) haxis htest
  obtain ⟨es, r, hmany⟩ := exists_many (predicate expression) t
  rw [show step expression (c :: s) = some (.mk .child test es, r) from
    map_eq_some.mpr ⟨_, both_eq_some.mpr ⟨t, hhead, hmany⟩, rfl⟩]
  simp

/-- A text that no name test reads to its end, where it stands. -/
structure MisreadHere (s : List Char) : Prop where
  head : ∀ c ∈ s.head?, isNameStart c = true ∨ 128 ≤ c.toNat
  noAxis : axis s = none
  stalls : Stalls nodeTest s

theorem MisreadHere.head_ne (h : MisreadHere s) {x : Char} (hx : isNameStart x = false)
    (hascii : x.toNat < 128) : s.head? ≠ some x := by
  intro hs
  rcases h.head x hs with hstart | hlarge
  · simp [hx] at hstart
  · omega

theorem Misread.here (h : Misread text)
    (hhead : ∀ c ∈ text.head?, isNameStart c = true ∨ 128 ≤ c.toNat) (t : List Char) :
    MisreadHere (text ++ t) where
  head := by
    obtain ⟨c, hc, -⟩ := h.head
    rw [List.head?_append, hc]
    rwa [hc] at hhead
  noAxis := h.noAxis t
  stalls := h.stalls t

theorem misreadHere_nil : MisreadHere [] :=
  ⟨by simp, axis_of_no_start (by simp), stalls_of_none (nodeTest_of_no_start (by simp) (by simp))⟩

/-- A prefix has to stand in front of a name. -/
theorem misreadHere_of_qualifier (h : IsPlain qualifier) :
    MisreadHere (qualifier.toList ++ [':']) where
  head c hc := by
    obtain ⟨x, hx, hstart⟩ := h.head [':']
    obtain rfl := Option.some.inj (hx.symm.trans hc)
    exact .inl hstart
  noAxis := axis_of_name h.isNameChar (follows_colon (by simp))
  stalls := by
    have hfollows : Follows [':'] := follows_colon (by simp)
    have hplain := plainName_append h hfollows.noNameChar
    have hword : Reader.word ":*" [':'] = none := rfl
    have hname : qualifiedName (qualifier.toList ++ [':']) = some ((none, qualifier), [':']) := by
      rw [qualifiedName_of_colon hplain]
      rfl
    intro found r hread
    simp [nodeTest, Reader.orElse, Reader.map, Reader.both, anyInTest, h.no_star,
      typeTest_of_name h.isNameChar hfollows, hplain, hword, hname] at hread
    rw [← hread.2]
    exact stuck_of_isInert (by decide) _

end Names

section Steps

/-- A text in the place of a step that stalls there, or that is no step at all and not behind a slash
either. -/
structure BrokenStep (s : List Char) : Prop where
  noSlash : s.head? ≠ some '/'
  stalls : Stalls (step expression) s
  stuck : s ≠ [] → step expression s = none → Stuck s

theorem MisreadHere.brokenStep (h : MisreadHere s) : BrokenStep s where
  noSlash := h.head_ne (by decide) (by decide)
  stalls := stalls_step_of_nodeTest (h.head_ne (by decide) (by decide))
    (h.head_ne (by decide) (by decide)) h.noAxis h.stalls
  stuck hne hnone := by
    obtain ⟨c, s, rfl⟩ := List.exists_cons_of_ne_nil hne
    rcases h.head c rfl with hstart | hlarge
    · exact absurd hnone (step_of_start hstart h.noAxis)
    · exact stuck_of_isInert (isInert_of_not_ascii hlarge) s

theorem MisreadHere.brokenStep_at (h : MisreadHere s) : BrokenStep ('@' :: s) where
  noSlash := by simp
  stalls := stalls_step_at h.stalls
  stuck _ _ := stuck_of_isInert (by decide) s

theorem expression_absolute {steps : List Step} (h : List.Forall₂ StepText texts steps) :
    expression ('/' :: joinWith ['/'] texts) = some (.absolute steps, []) :=
  ((reads_absolute h).lower (Nat.zero_le _) (by decide)).expression_eq_some

/-- Texts in the places of steps. Those that `legible` admits are read wherever they stand, the others
are broken in front of those behind them. -/
inductive Decided {α : Type} (legible : α → Prop) (text : α → List Char) : List α → Prop
  | nil : Decided legible text []
  | read {a : α} {st : Step} {more : List α} (ha : legible a) (hst : StepText (text a) st)
      (hmore : Decided legible text more) : Decided legible text (a :: more)
  | broken {a : α} {more : List α} (ha : ¬ legible a)
      (hbroken : BrokenStep (text a ++ slashed (more.map text)))
      (hmore : Decided legible text more) : Decided legible text (a :: more)

namespace Decided

variable {α : Type} {legible : α → Prop} {write : α → List Char} {as : List α}

theorem exists_steps (h : Decided legible write as) (hl : ∀ a ∈ as, legible a) :
    ∃ steps, List.Forall₂ StepText (as.map write) steps := by
  induction h with
  | nil => exact ⟨[], .nil⟩
  | read ha hst _ ih =>
    obtain ⟨steps, hsteps⟩ := ih (List.forall_mem_cons.mp hl).2
    exact ⟨_ :: steps, .cons hst hsteps⟩
  | broken ha => exact absurd (hl _ List.mem_cons_self) ha

/-- Steps stall at the first one that is broken. -/
theorem stalls (h : Decided legible write as) (hn : ¬ ∀ a ∈ as, legible a) :
    Stalls (slashSteps expression) (slashed (as.map write)) := by
  induction h with
  | nil => exact absurd (by simp) hn
  | @read a st more ha hst hmore ih =>
    have hrest : ¬ ∀ a ∈ more, legible a := fun hall => hn (List.forall_mem_cons.mpr ⟨ha, hall⟩)
    obtain ⟨t, ht, hsteps⟩ := slashSteps_slashed (.cons hst .nil) .nil
    obtain rfl : t = [] := by rcases ht with rfl | rfl <;> rfl
    have hslash : (slashed (more.map write)).head? = some '/' := by
      cases more with
      | nil => exact absurd (by simp) hrest
      | cons b more => rfl
    have htext : slashed ((a :: more).map write) =
        slashed [write a] ++ [] ++ slashed (more.map write) := by simp [slashed]
    rw [htext]
    exact .slashSteps_append hsteps hslash (ih hrest)
  | @broken a more ha hbroken =>
    rw [List.map_cons]
    exact stalls_slashSteps rfl (stalls_slashStep_of_one hbroken.noSlash hbroken.stalls)

/-- A path stalls where its steps do, unless it is a slash alone. -/
theorem stalls_path (h : Decided legible write as) (hn : ¬ ∀ a ∈ as, legible a)
    (hslash : slashed (as.map write) ≠ ['/']) :
    Stalls (path expression) (slashed (as.map write)) := by
  have hsteps := h.stalls hn
  cases h with
  | nil => exact absurd (by simp) hn
  | @read a st more ha hst hmore =>
    have hhead : (write a ++ slashed (more.map write)).head? ≠ some '/' := by
      rw [List.head?_append_of_ne_nil _ hst.nonempty]
      exact hst.noSlash
    have hends : Ends 9 (slashed (more.map write)) := by
      cases more with
      | nil => exact .nil
      | cons b more => exact .slash (Nat.le_refl _) _
    obtain ⟨t, -, hread⟩ := hst.reads _ hends
    refine stalls_path_of_one hhead hsteps fun hnone => ?_
    cases hread.symm.trans hnone
  | @broken a more ha hbroken =>
    refine stalls_path_of_one hbroken.noSlash hsteps (hbroken.stuck fun hnil => hslash ?_)
    exact congrArg ('/' :: ·) hnil

/-- A path from the document node is an expression exactly if all its steps are legible, or there are
none behind the slash. -/
theorem expression_iff (h : Decided legible write as) (hne : as ≠ []) :
    (∃ e, expression (slashed (as.map write)) = some (e, [])) ↔
      slashed (as.map write) = ['/'] ∨ ∀ a ∈ as, legible a := by
  constructor
  · rintro ⟨e, he⟩
    by_contra hnot
    obtain ⟨hslash, hn⟩ := not_or.mp hnot
    obtain ⟨a, more, rfl⟩ := List.exists_cons_of_ne_nil hne
    have hstalls := stalls_expression_of_path (by simp [slashed, skipSpace, isSpace])
      (h.stalls_path hn hslash)
    exact (hstalls e [] he).ne_nil rfl
  · rintro (hslash | hl)
    · rw [hslash]
      have hroot := expression_absolute List.Forall₂.nil
      exact ⟨_, hroot⟩
    · obtain ⟨steps, hsteps⟩ := h.exists_steps hl
      obtain ⟨a, more, rfl⟩ := List.exists_cons_of_ne_nil hne
      have htext : slashed ((a :: more).map write) = '/' :: joinWith ['/'] ((a :: more).map write) := by
        rw [List.map_cons, joinWith_slash]
        rfl
      rw [htext]
      exact ⟨_, expression_absolute hsteps⟩

end Decided

end Steps

end MarkupQuery.Query
