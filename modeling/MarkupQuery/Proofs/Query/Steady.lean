import MarkupQuery.Page.Scope
import MarkupQuery.Query.Reader

namespace MarkupQuery.Query

open MarkupQuery.Text MarkupQuery.Page

abbrev inside (depth : Nat) : Nesting := ⟨depth, none⟩

/-- Nothing comes after the spaces, or something that separates steps or branches, or a parenthesis
that closes them, or a blank that is not skipped. -/
def Stops (s : List Char) : Prop :=
  ∀ c ∈ (skipSpace s).head?, c = '|' ∨ c = '/' ∨ c = ')' ∨ isBlank c = true

/-- A relation between texts at a nesting that they have in common. They go on with the same
character, or both end, or both stop outside of all brackets. -/
structure Twins (R : Nesting → List Char → List Char → Prop) : Prop where
  cases : ∀ {n s s'}, R n s s' → (s = [] ∧ s' = []) ∨
    (∃ c r r', s = c :: r ∧ s' = c :: r' ∧ R (n.after c) r r') ∨
    (n = inside 0 ∧ Stops s ∧ Stops s' ∧ R n (skipSpace s) (skipSpace s'))

/-- Equal texts are twins at any nesting. -/
theorem twins_eq : Twins fun _ s s' => s = s' where
  cases := by
    rintro n s _ rfl
    cases s with
    | nil => exact .inl ⟨rfl, rfl⟩
    | cons c r => exact .inr (.inl ⟨c, r, r, rfl, rfl, rfl⟩)

/-- The same value or none, with rests that are related again; at least `taken` characters are
read. -/
inductive Same {α ι : Type} (R : ι → List Char → List Char → Prop) (i : ι) (taken : Nat)
    (s s' : List Char) : Option (α × List Char) → Option (α × List Char) → Prop
  | none : Same R i taken s s' none none
  | some {a : α} {r r' : List Char} (h : R i r r') (hl : r.length + taken ≤ s.length)
    (hl' : r'.length + taken ≤ s'.length) : Same R i taken s s' (some (a, r)) (some (a, r'))

/-- Two readers do the same on texts of less than `bound` characters that are related at `i`, and the
rests that they leave are related at `j`. -/
def Agrees {α ι : Type} (R : ι → List Char → List Char → Prop) (bound taken : Nat) (i j : ι)
    (p p' : Reader α) : Prop :=
  ∀ s s', s.length < bound → s'.length < bound → R i s s' → Same R j taken s s' (p s) (p' s')

abbrev Steady {α : Type} (R : Nesting → List Char → List Char → Prop)
    (bound taken depth depth' : Nat) (p p' : Reader α) : Prop :=
  Agrees R bound taken (inside depth) (inside depth') p p'

variable {α β ι : Type} {bound taken taken' depth : Nat} {s s' : List Char}

theorem length_skipSpace_le (s : List Char) : (skipSpace s).length ≤ s.length :=
  List.dropWhile_sublist _ |>.length_le

theorem after_space {c : Char} (hc : isSpace c = true) (depth : Nat) :
    (inside depth).after c = inside depth := by
  have hne : ∀ d, isSpace d = false → c ≠ d := by
    rintro d hd rfl
    simp [hc] at hd
  simp [Nesting.after, hne '\'' (by decide), hne '"' (by decide), hne '[' (by decide),
    hne '(' (by decide), hne ']' (by decide), hne ')' (by decide)]

theorem Twins.skipSpace {R : Nesting → List Char → List Char → Prop} (hR : Twins R)
    (h : R (inside depth) s s') :
    R (inside depth) (skipSpace s) (skipSpace s') := by
  induction s generalizing s' with
  | nil =>
    rcases hR.cases h with ⟨-, rfl⟩ | ⟨_, _, _, hs, -⟩ | ⟨-, -, -, hskip⟩
    · exact h
    · simp at hs
    · exact hskip
  | cons c s ih =>
    rcases hR.cases h with ⟨hs, -⟩ | ⟨_, _, r', hs, rfl, hr⟩ | ⟨-, -, -, hskip⟩
    · simp at hs
    · obtain ⟨rfl, rfl⟩ := List.cons.inj hs
      by_cases hc : isSpace c = true
      · rw [after_space hc] at hr
        simpa [Text.skipSpace, hc] using ih hr
      · simpa [Text.skipSpace, hc] using h
    · exact hskip

variable {R : ι → List Char → List Char → Prop} {i i' j j' k : ι}

theorem Same.mono {less : Nat} {x x' : Option (α × List Char)}
    (h : Same R i taken s s' x x') (hl : less ≤ taken) : Same R i less s s' x x' := by
  cases h with
  | none => exact .none
  | some h hs hs' => exact .some h (by omega) (by omega)

/-- The same on shorter texts is the same on the texts that they were read off. -/
theorem Same.of_rest {r r' : List Char} {x x' : Option (α × List Char)}
    (h : Same R i taken' r r' x x') (hl : r.length + taken ≤ s.length)
    (hl' : r'.length + taken ≤ s'.length) : Same R i (taken + taken') s s' x x' := by
  cases h with
  | none => exact .none
  | some h hr hr' => exact .some h (by omega) (by omega)

theorem Same.bind {x x' : Option (α × List Char)} {f f' : α × List Char → Option (β × List Char)}
    (h : Same R i taken s s' x x')
    (hf : ∀ a r r', x = Option.some (a, r) → x' = Option.some (a, r') → R i r r' →
      r.length + taken ≤ s.length → r'.length + taken ≤ s'.length →
      Same R j taken' s s' (f (a, r)) (f' (a, r'))) :
    Same R j taken' s s' (x >>= f) (x' >>= f') := by
  cases h with
  | none => exact .none
  | some h hl hl' => exact hf _ _ _ rfl rfl h hl hl'

namespace Agrees

variable {p p' : Reader α} {q q' : Reader β}

theorem mono {less bound' : Nat} (h : Agrees R bound taken i j p p') (hl : less ≤ taken)
    (hb : bound' ≤ bound) : Agrees R bound' less i j p p' :=
  fun s s' hs hs' hr => (h s s' (by omega) (by omega) hr).mono hl

theorem weaken (h : Agrees R bound taken i j p p') : Agrees R bound 0 i j p p' :=
  h.mono (Nat.zero_le _) (Nat.le_refl _)

/-- A bound on the texts is also one on their rests. -/
theorem rest (h : Agrees R bound taken i j p p') (less : Nat) :
    Agrees R (bound - less) taken i j p p' := h.mono (Nat.le_refl _) (Nat.sub_le _ _)

/-- Texts may be related more closely before. -/
theorem restrict (h : Agrees R bound taken i j p p') (hi : ∀ s s', R i' s s' → R i s s') :
    Agrees R bound taken i' j p p' := fun s s' hs hs' hr => h s s' hs hs' (hi s s' hr)

/-- Rests may be related less closely. -/
theorem relax (h : Agrees R bound taken i j p p') (hj : ∀ s s', R j s s' → R j' s s') :
    Agrees R bound taken i j' p p' := by
  intro s s' hs hs' hr
  have hp := h s s' hs hs' hr
  generalize p s = x at hp
  generalize p' s' = x' at hp
  cases hp with
  | none => exact .none
  | some hr hl hl' => exact .some (hj _ _ hr) hl hl'

theorem map (f : α → β) (h : Agrees R bound taken i j p p') :
    Agrees R bound taken i j (.map f p) (.map f p') := by
  intro s s' hs hs' hr
  have hp := h s s' hs hs' hr
  unfold Reader.map
  cases hx : p s with
  | none =>
    rw [hx] at hp
    generalize p' s' = x' at hp
    cases hp
    exact .none
  | some found =>
    rw [hx] at hp
    generalize p' s' = x' at hp
    cases hp with
    | some hr hl hl' => exact .some hr hl hl'

theorem orElse {r r' : Reader α} (h : Agrees R bound taken i j p p')
    (h' : Agrees R bound taken i j r r') :
    Agrees R bound taken i j (.orElse p r) (.orElse p' r') := by
  intro s s' hs hs' hr
  have hp := h s s' hs hs' hr
  unfold Reader.orElse
  generalize p s = x at hp
  generalize p' s' = x' at hp
  cases hp with
  | none => exact h' s s' hs hs' hr
  | some hr hl hl' => exact .some hr hl hl'

/-- Of some words the first that comes next is read. -/
theorem oneOf {entries : List (α × String)}
    (he : ∀ entry ∈ entries, Agrees R bound taken i j (.word entry.2) (.word entry.2)) :
    Agrees R bound taken i j
      (fun s => entries.findSome? fun (a, name) => Reader.map (fun _ => a) (.word name) s)
      (fun s => entries.findSome? fun (a, name) => Reader.map (fun _ => a) (.word name) s) := by
  induction entries with
  | nil => exact fun _ _ _ _ _ => .none
  | cons entry entries ih =>
    obtain ⟨hfirst, hrest⟩ := List.forall_mem_cons.mp he
    intro s s' hs hs' hr
    have hboth := (hfirst.map fun _ => entry.1).orElse (ih hrest) s s' hs hs' hr
    simp only [List.findSome?_cons]
    unfold Reader.orElse at hboth
    split at hboth <;> split at hboth <;> simp_all

theorem both (h : Agrees R bound taken i j p p')
    (h' : Agrees R (bound - taken) taken' j k q q') :
    Agrees R bound (taken + taken') i k (.both p q) (.both p' q') := by
  intro s s' hs hs' hr
  have hp := h s s' hs hs' hr
  unfold Reader.both
  generalize p s = x at hp
  generalize p' s' = x' at hp
  cases hp with
  | none => exact .none
  | @some a r r' hr hl hl' =>
    have hq := h' r r' (by omega) (by omega) hr
    generalize hy : q r = y at hq
    generalize hy' : q' r' = y' at hq
    simp only [bind, Option.bind, hy, hy', pure]
    cases hq with
    | none => exact .none
    | @some b t t' hr' hk hk' =>
      have ht : t.length + (taken + taken') ≤ s.length := by omega
      have ht' : t'.length + (taken + taken') ≤ s'.length := by omega
      exact .some hr' ht ht'

/-- Skipping space may lead from one relation to another, before and after. -/
theorem spaced (hi : ∀ s s', R i s s' → R i' (skipSpace s) (skipSpace s'))
    (hj : ∀ s s', R j s s' → R j' (skipSpace s) (skipSpace s'))
    (h : Agrees R bound taken i' j p p') :
    Agrees R bound taken i j' (.spaced p) (.spaced p') := by
  intro s s' hs hs' hr
  have hl := length_skipSpace_le s
  have hl' := length_skipSpace_le s'
  have hp := h (skipSpace s) (skipSpace s') (by omega) (by omega) (hi s s' hr)
  unfold Reader.spaced
  generalize p (skipSpace s) = x at hp
  generalize p' (skipSpace s') = x' at hp
  cases hp with
  | none => exact .none
  | @some a r r' hr hk hk' =>
    have hm := length_skipSpace_le r
    have hm' := length_skipSpace_le r'
    exact .some (hj r r' hr) (by omega) (by omega)

/-- A reader that may be left out leaves off where it starts, or behind what it reads. -/
theorem optionalTo (h : Agrees R bound taken i j p p')
    (hnone : ∀ s s', R i s s' → p s = none → R j s s') :
    Agrees R bound 0 i j (.optional p) (.optional p') := by
  intro s s' hs hs' hr
  have hp := h s s' hs hs' hr
  have hnone := hnone s s' hr
  unfold Reader.optional
  generalize p s = x at hp hnone
  generalize p' s' = x' at hp
  cases hp with
  | none => exact .some (hnone rfl) (by omega) (by omega)
  | some hr hl hl' => exact .some hr (by omega) (by omega)

theorem optional (h : Agrees R bound taken i i p p') :
    Agrees R bound 0 i i (.optional p) (.optional p') := h.optionalTo fun _ _ hr _ => hr

theorem manyUpTo (h : Agrees R bound 1 i i p p') {fuel fuel' : Nat}
    (hs : s.length < bound) (hs' : s'.length < bound) (hf : s.length ≤ fuel)
    (hf' : s'.length ≤ fuel') (hr : R i s s') :
    (Reader.manyUpTo p fuel s).1 = (Reader.manyUpTo p' fuel' s').1 ∧
      R i (Reader.manyUpTo p fuel s).2 (Reader.manyUpTo p' fuel' s').2 ∧
      (Reader.manyUpTo p fuel s).2.length ≤ s.length ∧
      (Reader.manyUpTo p' fuel' s').2.length ≤ s'.length := by
  -- without fuel there is no text left, and nothing can be read off an empty text
  have hnil : ∀ {t t' : List Char}, t.length < bound → t'.length < bound → R i t t' →
      t = [] ∨ t' = [] → p t = none ∧ p' t' = none := by
    intro t t' ht ht' hr hnil
    have hp := h t t' ht ht' hr
    generalize p t = x at hp
    generalize p' t' = x' at hp
    cases hp with
    | none => exact ⟨rfl, rfl⟩
    | some _ hl hl' => rcases hnil with rfl | rfl <;> simp at hl hl'
  induction fuel generalizing s s' fuel' with
  | zero =>
    have hempty := List.eq_nil_of_length_eq_zero (Nat.le_zero.mp hf)
    obtain ⟨-, hp'⟩ := hnil hs hs' hr (.inl hempty)
    cases fuel' <;> simp [Reader.manyUpTo, hp', hr]
  | succ fuel ih =>
    cases fuel' with
    | zero =>
      have hempty := List.eq_nil_of_length_eq_zero (Nat.le_zero.mp hf')
      obtain ⟨hp, -⟩ := hnil hs hs' hr (.inr hempty)
      simp [Reader.manyUpTo, hp, hr]
    | succ fuel' =>
      have hp := h s s' hs hs' hr
      rw [Reader.manyUpTo, Reader.manyUpTo]
      generalize p s = x at hp
      generalize p' s' = x' at hp
      cases hp with
      | none => exact ⟨rfl, hr, Nat.le_refl _, Nat.le_refl _⟩
      | @some a r r' hrest hl hl' =>
        have hb : r.length < bound := by omega
        have hb' : r'.length < bound := by omega
        have hfuel : r.length ≤ fuel := by omega
        have hfuel' : r'.length ≤ fuel' := by omega
        obtain ⟨hvalues, hrests, hk, hk'⟩ := ih hb hb' hfuel hfuel' hrest
        exact ⟨congrArg (a :: ·) hvalues, hrests, Nat.le_trans hk (by omega),
          Nat.le_trans hk' (by omega)⟩

theorem many (h : Agrees R bound 1 i i p p') :
    Agrees R bound 0 i i (.many p) (.many p') := by
  intro s s' hs hs' hr
  obtain ⟨hvalues, hrests, hl, hl'⟩ :=
    h.manyUpTo hs hs' (Nat.le_refl s.length) (Nat.le_refl s'.length) hr
  unfold Reader.many
  generalize Reader.manyUpTo p s.length s = x at hvalues hrests hl
  generalize Reader.manyUpTo p' s'.length s' = x' at hvalues hrests hl'
  obtain ⟨as, r⟩ := x
  obtain ⟨as', r'⟩ := x'
  obtain rfl : as = as' := hvalues
  exact .some hrests hl hl'

/-- Values with separators start at `i`, each of them, and end at `j`; without any they end where
they start. -/
theorem separatedTo {separator separator' : Reader Unit}
    (hs : Agrees R bound 1 j i separator separator') (h : Agrees R bound 0 i j p p')
    (hnone : ∀ s s', R i s s' → p s = none → R j s s') :
    Agrees R bound 0 i j (.separated separator p) (.separated separator' p') := by
  intro s s' hl hl' hr
  have hp := h s s' hl hl' hr
  have hnone := hnone s s' hr
  unfold Reader.separated
  generalize p s = x at hp hnone
  generalize p' s' = x' at hp
  cases hp with
  | none => exact .some (hnone rfl) (Nat.le_refl _) (Nat.le_refl _)
  | @some a r r' hrest hk hk' =>
    have hmore := (((hs.both (h.rest 1)).map Prod.snd).many.map (a :: ·)) r r' (by omega) (by omega)
      hrest
    exact hmore.of_rest hk hk'

theorem separated {separator separator' : Reader Unit}
    (hs : Agrees R bound 1 i i separator separator') (h : Agrees R bound 0 i i p p') :
    Agrees R bound 0 i i (.separated separator p) (.separated separator' p') :=
  hs.separatedTo h fun _ _ hr _ => hr

end Agrees

/-- Twins are still twins behind the spaces. -/
theorem Twins.spaced {R : Nesting → List Char → List Char → Prop} {depth' : Nat}
    {p p' : Reader α} (hR : Twins R) (h : Steady R bound taken depth depth' p p') :
    Steady R bound taken depth depth' (.spaced p) (.spaced p') :=
  h.spaced (fun _ _ => hR.skipSpace) fun _ _ => hR.skipSpace

end MarkupQuery.Query
