import MarkupQuery.Proofs.Query.Cut
import MarkupQuery.Proofs.Query.Repetition

namespace MarkupQuery.Query

open MarkupQuery.Text MarkupQuery.Page

variable {R : Nesting → List Char → List Char → Prop} {bound depth : Nat}
  {s s' r t t' : List Char} {st : Step} {steps : List Step}

theorem steady_stepOf (hR : Twins R) :
    Steady R bound 1 depth depth (step expression) (step expression) :=
  steady_step (fun depth => steady_expression hR depth) hR

theorem strict_slashStep : Strict (slashStep expression) := by
  have hsteady : ∀ bound, Steady (fun _ s s' => s = s') bound 1 1 1 (slashStep expression)
      (slashStep expression) := fun _ =>
    steady_slashStep (fun depth => steady_expression twins_eq depth) (steady_innerSlash twins_eq)
      twins_eq
  exact strict_of_steady hsteady

/-- What two readings have in common, for texts without a bound. -/
theorem step_same (hR : Twins R) (h : R (inside 0) s s') :
    Same R (inside 0) 1 s s' (step expression s) (step expression s') :=
  steady_stepOf hR s s' (Nat.lt_succ_of_le (Nat.le_max_left s.length s'.length))
    (Nat.lt_succ_of_le (Nat.le_max_right s.length s'.length)) h

/-- Nothing interrupts the text of a step. -/
theorem exists_crossed_of_step (h : step expression s = some (st, r)) :
    ∃ c, s = c ++ r ∧ c ≠ [] ∧ crossed (inside 0) c = some (inside 0) := by
  have hsame := step_same (twins_remains s) (show Remains s (inside 0) s s from ⟨rfl, [], rfl, rfl⟩)
  rw [h] at hsame
  cases hsame with
  | some hr hl =>
    obtain ⟨-, c, hs, hc⟩ := hr
    refine ⟨c, hs, ?_, hc⟩
    rintro rfl
    rw [hs, List.nil_append] at hl
    omega

def startsStep (c : Char) : Bool := isNameStart c || c == '.' || c == '@' || c == '*'

theorem word_of_head_ne {text : String} {c : Char} (ht : text.toList.head? = some c)
    (hs : s.head? ≠ some c) : Reader.word text s = none := by
  obtain ⟨cs, ht⟩ := List.head?_eq_some_iff.mp ht
  cases s with
  | nil => simp [Reader.word, afterStart?, ht]
  | cons d s =>
    have hd : c ≠ d := by simpa [eq_comm] using hs
    simp [Reader.word, afterStart?, ht, hd]

theorem oneOf_eq_none {α : Type} {entries : List (α × String)} {s : List Char}
    (h : ∀ entry ∈ entries, Reader.word entry.2 s = none) :
    (entries.findSome? fun (a, name) => Reader.map (fun _ => a) (.word name) s) = none := by
  rw [List.findSome?_eq_none_iff]
  intro entry hentry
  simp [Reader.map, h entry hentry]

/-- All words begin like a name. -/
theorem word_eq_none_of_names {α : Type} {entries : List (α × String)}
    (he : (entries.all fun entry => entry.2.toList.head?.any isNameStart) = true)
    (hs : ∀ c ∈ s.head?, isNameStart c = false) :
    ∀ entry ∈ entries, Reader.word entry.2 s = none := by
  intro entry hentry
  have hany := List.all_eq_true.mp he entry hentry
  obtain ⟨c, hc, hstart⟩ : ∃ c, entry.2.toList.head? = some c ∧ isNameStart c = true := by
    cases hhead : entry.2.toList.head? with
    | none => simp [hhead] at hany
    | some c => exact ⟨c, rfl, by simpa [hhead] using hany⟩
  refine word_of_head_ne hc fun hhead => ?_
  simp [hs c hhead] at hstart

theorem nodeTest_of_no_start (hs : ∀ c ∈ s.head?, isNameStart c = false)
    (hstar : s.head? ≠ some '*') : nodeTest s = none := by
  have hplain : plainName s = none := by
    cases s with
    | nil => rfl
    | cons c s => simp [plainName, hs c rfl]
  have htype : nodeType s = none :=
    oneOf_eq_none (word_eq_none_of_names (by decide) hs)
  simp [nodeTest, Reader.orElse, Reader.map, Reader.both, typeTest, anyInTest,
    char_of_head_ne hstar, htype, hplain, qualifiedName_of_none hplain]

theorem axis_of_no_start (hs : ∀ c ∈ s.head?, isNameStart c = false) : axis s = none := by
  have haxis : axisName s = none :=
    oneOf_eq_none (word_eq_none_of_names (by decide) hs)
  simp [axis, Reader.map, Reader.both, haxis]

theorem step_of_no_start (hs : ∀ c ∈ s.head?, startsStep c = false) (nested : Reader Expr) :
    step nested s = none := by
  have hname : ∀ c ∈ s.head?, isNameStart c = false := by
    intro c hc
    have := hs c hc
    simp only [startsStep, Bool.or_eq_false_iff] at this
    exact this.1.1.1
  have hne : ∀ x, startsStep x = true → s.head? ≠ some x := by
    intro x hx hhead
    simp [hs x hhead] at hx
  have hword : ∀ text x, startsStep x = true → text.toList.head? = some x →
      Reader.word text s = none := fun text x hx ht => word_of_head_ne ht (hne x hx)
  have htest : nodeTest s = none := nodeTest_of_no_start hname (hne '*' (by decide))
  have hhead : stepHead s = none := by
    simp [stepHead, Reader.orElse, Reader.map, Reader.both, Reader.optional,
      axis_of_no_start hname, htest, char_of_head_ne (hne '@' (by decide)),
      hword ".." '.' (by decide) rfl, hword "." '.' (by decide) rfl]
  simp [step, Reader.map, Reader.both, hhead]

/-- No step begins where a text stops. -/
theorem step_of_stops (hs : Stops s) : step expression s = none := by
  refine step_of_no_start (fun c hc => ?_) expression
  obtain ⟨r, rfl⟩ := List.head?_eq_some_iff.mp hc
  have hstop := isStop_of_stops hs
  cases hstart : startsStep c with
  | false => rfl
  | true =>
    simp only [startsStep, Bool.or_eq_true, beq_iff_eq] at hstart
    rcases hstart with ((hstart | rfl) | rfl) | rfl
    · have := passes_of_isNameChar (isNameChar_of_isNameStart hstart) 0
      exact absurd hs (not_stops_of_passes this)
    · exact absurd hstop (by decide)
    · exact absurd hstop (by decide)
    · exact absurd hstop (by decide)

theorem slashes_of_no_slash (hs : s.head? ≠ some '/') : Reader.word "//" s = none :=
  word_of_head_ne (show "//".toList.head? = some '/' from rfl) hs

theorem slashStep_of_no_slash (hs : s.head? ≠ some '/') : slashStep expression s = none := by
  simp [slashStep, Reader.map, Reader.both, Reader.orElse, char_of_head_ne hs,
    slashes_of_no_slash hs]

theorem slashes_of_one (hs : s.head? ≠ some '/') : Reader.word "//" ('/' :: s) = none := by
  cases s with
  | nil => rfl
  | cons c s =>
    have hc : '/' ≠ c := by simpa [eq_comm] using hs
    simp [Reader.word, afterStart?, hc]

theorem slashStep_of_one (hs : s.head? ≠ some '/') : slashStep expression ('/' :: s) =
    (step expression s).map fun found => ([found.1], found.2) := by
  simp only [slashStep, Reader.map, Reader.both, Reader.orElse, slashes_of_one hs, Reader.char]
  cases h : step expression s <;> simp [h]

theorem slashStep_of_two (s : List Char) : slashStep expression ('/' :: '/' :: s) =
    (step expression s).map fun found => ([Step.anywhereBelow, found.1], found.2) := by
  have hword : Reader.word "//" ('/' :: '/' :: s) = some ((), s) := rfl
  simp only [slashStep, Reader.map, Reader.both, Reader.orElse, hword]
  cases h : step expression s <;> simp [h]

/-- A text that a path may go on with, but that does not begin with a slash. -/
def EndsPath (t : List Char) : Prop := Stops t ∧ (skipSpace t).head? ≠ some '/'

theorem head_ne_of_skipSpace (h : (skipSpace t).head? ≠ some '/') : t.head? ≠ some '/' := by
  cases t with
  | nil => simp
  | cons c t =>
    rintro he
    obtain rfl : c = '/' := by simpa using he
    exact h rfl

/-- A step behind slashes is the same whatever tail follows it. -/
theorem slashStep_cut (ht : EndsPath t) (ht' : Stops t') (h : Cut t t' (inside 0) s s')
    (hs : slashStep expression s = some (steps, r)) :
    ∃ r', slashStep expression s' = some (steps, r') ∧ Cut t t' (inside 0) r r' := by
  obtain ⟨c, u, u', rfl, rfl, hu, hu', hc⟩ := h
  have hhead : u.head? ≠ some '/' := by
    refine head_ne_of_skipSpace ?_
    rw [skipSpace_eq_of_tail hu]
    exact ht.2
  have hR := twins_cut ht.1 ht'
  have hstep : ∀ (c : List Char) (f : Step → List Step), crossed (inside 0) c = some (inside 0) →
      ((step expression (c ++ u)).map fun found => (f found.1, found.2)) = some (steps, r) →
      ∃ r', ((step expression (c ++ u')).map fun found => (f found.1, found.2)) =
        some (steps, r') ∧ Cut t t' (inside 0) r r' := by
    intro c f hc hs
    have hsame := step_same hR (show Cut t t' (inside 0) (c ++ u) (c ++ u') from
      ⟨c, u, u', rfl, rfl, hu, hu', hc⟩)
    obtain ⟨⟨st, r⟩, hread, he⟩ := Option.map_eq_some_iff.mp hs
    obtain ⟨rfl, rfl⟩ := Prod.mk.inj he
    rw [hread] at hsame
    generalize step expression (c ++ u') = x' at hsame
    cases hsame with
    | some hr => exact ⟨_, rfl, hr⟩
  -- one slash or two, and what is behind them is cut as a step
  cases c with
  | nil => simp [slashStep_of_no_slash hhead] at hs
  | cons x c =>
    obtain rfl : x = '/' := by
      by_cases hx : x = '/'
      · exact hx
      · rw [slashStep_of_no_slash (by simpa using hx)] at hs
        simp at hs
    obtain ⟨-, hc⟩ := crossed_cons.mp hc
    cases c with
    | nil =>
      rw [List.singleton_append, slashStep_of_one hhead, step_of_stops (stops_of_tail ht.1 hu)] at hs
      simp at hs
    | cons y c =>
      by_cases hy : y = '/'
      · subst hy
        obtain ⟨-, hc⟩ := crossed_cons.mp hc
        simp only [List.cons_append, slashStep_of_two] at hs ⊢
        exact hstep c (fun st => [Step.anywhereBelow, st]) hc hs
      · have hy' : ∀ v, (y :: c ++ v).head? ≠ some '/' := fun v => by simpa using hy
        rw [List.cons_append, slashStep_of_one (hy' _)] at hs
        rw [List.cons_append, slashStep_of_one (hy' _)]
        exact hstep (y :: c) (fun st => [st]) hc hs

/-- Steps behind slashes are the same whatever tail follows them; there may be more of them. -/
theorem many_slashStep_cut (ht : EndsPath t) (ht' : Stops t') (h : Cut t t' (inside 0) s s')
    {lists : List (List Step)} (hs : Reader.many (slashStep expression) s = some (lists, r)) :
    ∃ r', Cut t t' (inside 0) r r' ∧ Reader.many (slashStep expression) s' =
      (Reader.many (slashStep expression) r').map fun (more, u) => (lists ++ more, u) := by
  induction lists generalizing s s' with
  | nil =>
    rcases strict_slashStep.many_iff.mp hs with ⟨-, -, rfl⟩ | ⟨_, _, _, -, -, hcons⟩
    · refine ⟨s', h, ?_⟩
      simp
    · simp at hcons
  | cons first lists ih =>
    rcases strict_slashStep.many_iff.mp hs with ⟨-, hnil, -⟩ | ⟨_, u, _, hfirst, hrest, hcons⟩
    · simp at hnil
    · obtain ⟨rfl, rfl⟩ := List.cons.inj hcons
      obtain ⟨u', hfirst', hcut⟩ := slashStep_cut ht ht' h hfirst
      obtain ⟨r', hr, hmany⟩ := ih hcut hrest
      refine ⟨r', hr, ?_⟩
      rw [strict_slashStep.many_of_some hfirst', hmany, Option.map_map]
      rfl

end MarkupQuery.Query
