import MarkupQuery.Proofs.Query.SteadyGrammar

namespace MarkupQuery.Query

open MarkupQuery.Text MarkupQuery.Page

/-- A bar between branches, or outside of brackets a blank that is not skipped. -/
def Interrupts (n : Nesting) (c : Char) : Prop :=
  n.endsBranch c = true ∨ (n = inside 0 ∧ isBlank c = true ∧ isSpace c = false)

instance (n : Nesting) (c : Char) : Decidable (Interrupts n c) :=
  inferInstanceAs (Decidable (_ ∨ _))

def crossed (n : Nesting) : List Char → Option Nesting
  | [] => some n
  | c :: s => if Interrupts n c then none else crossed (n.after c) s

variable {n m : Nesting} {c s s' r t t' : List Char}

theorem crossed_append (n : Nesting) (c s : List Char) :
    crossed n (c ++ s) = (crossed n c).bind fun m => crossed m s := by
  induction c generalizing n with
  | nil => rfl
  | cons x c ih =>
    rw [List.cons_append, crossed, crossed]
    split
    · rfl
    · exact ih _

theorem crossed_cons {x : Char} : crossed n (x :: s) = some m ↔
    ¬ Interrupts n x ∧ crossed (n.after x) s = some m := by
  rw [crossed]
  split <;> simp_all

theorem crossed_spaces {s : List Char} (hs : ∀ x ∈ s, isSpace x = true) (depth : Nat) :
    crossed (inside depth) s = some (inside depth) := by
  induction s with
  | nil => rfl
  | cons x s ih =>
    obtain ⟨hx, hrest⟩ := List.forall_mem_cons.mp hs
    rw [crossed_cons, after_space hx]
    refine ⟨?_, ih hrest⟩
    rintro (hbar | ⟨-, -, hspace⟩)
    · simp only [Nesting.endsBranch, Bool.and_eq_true, beq_iff_eq] at hbar
      rw [hbar.1.1] at hx
      exact absurd hx (by decide)
    · simp [hx] at hspace

theorem branchesFrom_crossed {first : List Char} {more : List (List Char)}
    (hc : crossed n c = some m) (hs : branchesFrom m s = first :: more) :
    branchesFrom n (c ++ s) = (c ++ first) :: more := by
  induction c generalizing n with
  | nil =>
    obtain rfl := Option.some.inj hc
    exact hs
  | cons x c ih =>
    obtain ⟨hx, hrest⟩ := crossed_cons.mp hc
    have hbar : n.endsBranch x = false := by
      simpa using mt Or.inl hx
    rw [List.cons_append, branchesFrom, hbar, ih hrest]
    rfl

/-- A text that nothing interrupts is one branch. -/
theorem branches_of_crossed (hc : crossed (inside 0) c = some m) : branches c = [c] := by
  have h := branchesFrom_crossed hc (show branchesFrom m [] = [[]] from rfl)
  simpa [branches] using h

theorem branches_of_bar (hc : crossed (inside 0) c = some (inside 0)) (s : List Char) :
    branches (c ++ '|' :: s) = c :: branches s := by
  have h := branchesFrom_crossed hc
    (show branchesFrom (inside 0) ('|' :: s) = [] :: branches s from rfl)
  simpa [branches] using h

/-- The text `s` is what remains of `whole` after something that nothing interrupts. -/
def Remains (whole : List Char) (n : Nesting) (s s' : List Char) : Prop :=
  s = s' ∧ ∃ c, whole = c ++ s ∧ crossed (inside 0) c = some n

/-- A text that is interrupted right away stops. -/
theorem stops_of_interrupts {x : Char} (h : Interrupts n x) (s : List Char) :
    n = inside 0 ∧ skipSpace (x :: s) = x :: s ∧ Stops (x :: s) := by
  have hspace : isSpace x = false := by
    rcases h with h | ⟨-, -, h⟩
    · simp only [Nesting.endsBranch, Bool.and_eq_true, beq_iff_eq] at h
      rw [h.1.1]
      rfl
    · exact h
  have hskip : skipSpace (x :: s) = x :: s := by simp [skipSpace, hspace]
  refine ⟨?_, hskip, ?_⟩
  · rcases h with h | ⟨h, -⟩
    · simp only [Nesting.endsBranch, Bool.and_eq_true, beq_iff_eq, Option.isNone_iff_eq_none] at h
      exact congr (congrArg Nesting.mk h.1.2) h.2
    · exact h
  · intro y hy
    rw [hskip] at hy
    obtain rfl : x = y := by simpa using hy
    rcases h with h | ⟨-, h, -⟩
    · simp only [Nesting.endsBranch, Bool.and_eq_true, beq_iff_eq] at h
      exact .inl h.1.1
    · exact .inr (.inr (.inr h))

theorem twins_remains (whole : List Char) : Twins (Remains whole) where
  cases := by
    rintro n s _ ⟨rfl, c, hwhole, hc⟩
    cases s with
    | nil => exact .inl ⟨rfl, rfl⟩
    | cons x r =>
      by_cases hx : Interrupts n x
      · obtain ⟨hn, hskip, hstops⟩ := stops_of_interrupts hx r
        refine .inr (.inr ⟨hn, hstops, hstops, ?_⟩)
        rw [hskip]
        exact ⟨rfl, c, hwhole, hc⟩
      · refine .inr (.inl ⟨x, r, r, rfl, rfl, rfl, c ++ [x], by simpa using hwhole, ?_⟩)
        rw [crossed_append, hc]
        exact crossed_cons.mpr ⟨hx, rfl⟩

/-- Texts that begin alike up to the tails `t` and `t'`, which a text may stop at. -/
def Cut (t t' : List Char) (n : Nesting) (s s' : List Char) : Prop :=
  ∃ c u u', s = c ++ u ∧ s' = c ++ u' ∧ (u = t ∨ u = skipSpace t) ∧ (u' = t' ∨ u' = skipSpace t') ∧
    crossed n c = some (inside 0)

theorem skipSpace_skipSpace (s : List Char) : skipSpace (skipSpace s) = skipSpace s := by
  induction s with
  | nil => rfl
  | cons x s ih =>
    by_cases hx : isSpace x = true
    · simpa [skipSpace, hx] using ih
    · simp [skipSpace, hx]

theorem skipSpace_eq_of_tail (h : s = t ∨ s = skipSpace t) : skipSpace s = skipSpace t := by
  rcases h with rfl | rfl
  · rfl
  · exact skipSpace_skipSpace t

theorem stops_of_tail (ht : Stops t) (h : s = t ∨ s = skipSpace t) : Stops s := by
  rwa [Stops, skipSpace_eq_of_tail h]

theorem twins_cut (ht : Stops t) (ht' : Stops t') : Twins (Cut t t') where
  cases := by
    rintro n s s' ⟨c, u, u', rfl, rfl, hu, hu', hc⟩
    cases c with
    | nil =>
      obtain rfl := Option.some.inj hc
      refine .inr (.inr ⟨rfl, stops_of_tail ht hu, stops_of_tail ht' hu', ?_⟩)
      exact ⟨[], _, _, rfl, rfl, .inr (skipSpace_eq_of_tail hu), .inr (skipSpace_eq_of_tail hu'), rfl⟩
    | cons x c =>
      obtain ⟨-, hrest⟩ := crossed_cons.mp hc
      exact .inr (.inl ⟨x, _, _, rfl, rfl, c, u, u', rfl, rfl, hu, hu', hrest⟩)

end MarkupQuery.Query
