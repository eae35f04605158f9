import MarkupQuery.Proofs.Query.Cut
import Mathlib.Data.List.TakeWhile

namespace MarkupQuery.Query

open MarkupQuery.Text MarkupQuery.Page

variable {n m : Nesting} {c s w t : List Char}

/-- Trimming takes away blanks. -/
theorem exists_trimEnd (s : List Char) :
    ∃ w, s = trimEnd s ++ w ∧ (∀ x ∈ w, isBlank x = true) ∧
      ∀ x ∈ (trimEnd s).getLast?, isBlank x = false := by
  refine ⟨(s.reverse.takeWhile isBlank).reverse, ?_, ?_, ?_⟩
  · rw [trimEnd, ← List.reverse_append, List.takeWhile_append_dropWhile, List.reverse_reverse]
  · intro x hx
    exact List.all_eq_true.mp List.all_takeWhile x (List.mem_reverse.mp hx)
  · intro x hx
    rw [trimEnd, List.getLast?_reverse] at hx
    simpa using List.head?_dropWhile_not isBlank s.reverse |> fun h => by
      rw [Option.mem_def.mp hx] at h
      exact h

theorem trimEnd_append_blanks (hw : ∀ x ∈ w, isBlank x = true) (s : List Char) :
    trimEnd (s ++ w) = trimEnd s := by
  rw [trimEnd, List.reverse_append, List.dropWhile_append_of_pos, trimEnd]
  intro x hx
  exact hw x (List.mem_reverse.mp hx)

theorem trimEnd_of_last (hs : ∀ x ∈ s.getLast?, isBlank x = false) : trimEnd s = s := by
  rcases List.eq_nil_or_concat s with rfl | ⟨before, last, rfl⟩
  · rfl
  · have hlast : isBlank last = false := hs last (by simp)
    simp [trimEnd, hlast]

theorem head_trimEnd (hs : ∀ x ∈ s.head?, isBlank x = false) : (trimEnd s).head? = s.head? := by
  obtain ⟨w, hw, hblank, -⟩ := exists_trimEnd s
  cases h : trimEnd s with
  | nil =>
    rw [h, List.nil_append] at hw
    subst hw
    cases s with
    | nil => rfl
    | cons x s => simp [hs x rfl] at hblank
  | cons x t =>
    rw [h] at hw
    rw [hw]
    rfl

/-- Only the end of a text counts for trimming it, as long as that is not blank. -/
theorem trimEnd_append (s : List Char) (ht : trimEnd t ≠ []) :
    trimEnd (s ++ t) = s ++ trimEnd t := by
  obtain ⟨w, hw, hblank, hlast⟩ := exists_trimEnd t
  have hwhole : s ++ t = s ++ trimEnd t ++ w := by rw [List.append_assoc, ← hw]
  rw [hwhole, trimEnd_append_blanks hblank, trimEnd_of_last]
  rw [List.getLast?_append]
  cases h : (trimEnd t).getLast? with
  | none => exact absurd (List.getLast?_eq_none_iff.mp h) ht
  | some x => simpa [h] using hlast

theorem last_concat {x : Char} (hx : isBlank x = false) (s : List Char) :
    ∀ y ∈ (s ++ [x]).getLast?, isBlank y = false := by
  simpa using hx

theorem trimEnd_concat {x : Char} (hx : isBlank x = false) (s : List Char) :
    trimEnd (s ++ [x]) = s ++ [x] := trimEnd_of_last (last_concat hx s)

/-- A text that does not end in a blank is kept, whatever is trimmed away behind it. -/
theorem trimEnd_append_of_last (hs : ∀ x ∈ s.getLast?, isBlank x = false) (t : List Char) :
    trimEnd (s ++ t) = s ++ trimEnd t := by
  by_cases ht : trimEnd t = []
  · obtain ⟨w, hw, hblank, -⟩ := exists_trimEnd t
    rw [ht, List.nil_append] at hw
    rw [ht, hw, trimEnd_append_blanks hblank, trimEnd_of_last hs, List.append_nil]
  · exact trimEnd_append s ht

theorem trimStart_of_head (hs : ∀ x ∈ s.head?, isBlank x = false) : trimStart s = s := by
  cases s with
  | nil => rfl
  | cons x s =>
    have hx : isBlank x = false := hs x rfl
    simp [trimStart, hx]

theorem trimStart_of_blanks (hw : ∀ x ∈ w, isBlank x = true) : trimStart w = [] := by
  exact List.dropWhile_eq_nil_iff.mpr hw

theorem trim_append_blanks (hw : ∀ x ∈ w, isBlank x = true) (s : List Char) :
    trim (s ++ w) = trim s := by
  rw [trim, trim, trimStart, trimStart, List.dropWhile_append]
  split
  · rename_i hempty
    rw [List.isEmpty_iff.mp hempty, ← trimStart, trimStart_of_blanks hw]
  · exact trimEnd_append_blanks hw _

theorem trim_blanks_append (hw : ∀ x ∈ w, isBlank x = true) (s : List Char) :
    trim (w ++ s) = trim s := by
  rw [trim, trim, trimStart, List.dropWhile_append_of_pos hw]
  rfl

def QuoteSound (n : Nesting) : Prop := ∀ q ∈ n.quote, isBlank q = false

theorem QuoteSound.after (hn : QuoteSound n) (x : Char) : QuoteSound (n.after x) := by
  obtain ⟨depth, quote⟩ := n
  unfold Nesting.after
  cases quote with
  | some q =>
    dsimp only
    split
    · exact fun _ h => by simp at h
    · exact hn
  | none =>
    dsimp only
    split
    · rename_i hquote
      intro q hq
      obtain rfl : x = q := by simpa using hq
      simp only [Bool.or_eq_true, beq_iff_eq] at hquote
      rcases hquote with rfl | rfl <;> rfl
    · split
      · exact fun _ h => by simp at h
      · split
        · exact fun _ h => by simp at h
        · exact hn

theorem QuoteSound.crossed (hn : QuoteSound n) (hc : crossed n c = some m) : QuoteSound m := by
  induction c generalizing n with
  | nil =>
    obtain rfl := Option.some.inj hc
    exact hn
  | cons x c ih => exact ih (hn.after x) (crossed_cons.mp hc).2

theorem after_blank (hn : QuoteSound n) {x : Char} (hx : isBlank x = true) : n.after x = n := by
  have hne : ∀ d, isBlank d = false → x ≠ d := by
    rintro d hd rfl
    simp [hx] at hd
  obtain ⟨depth, quote⟩ := n
  cases quote with
  | some q => simp [Nesting.after, hne q (hn q rfl)]
  | none =>
    simp [Nesting.after, hne '\'' (by decide), hne '"' (by decide), hne '[' (by decide),
      hne '(' (by decide), hne ']' (by decide), hne ')' (by decide)]

/-- Blanks at the end of a text that is not interrupted are spaces outside of brackets. -/
theorem crossed_of_append_blanks (hw : ∀ x ∈ w, isBlank x = true)
    (hc : crossed (inside 0) (c ++ w) = some (inside 0)) :
    crossed (inside 0) c = some (inside 0) ∧ ∀ x ∈ w, isSpace x = true := by
  rw [crossed_append, Option.bind_eq_some_iff] at hc
  obtain ⟨m, hm, hrest⟩ := hc
  have hsound : QuoteSound m := QuoteSound.crossed (fun _ h => by simp at h) hm
  have hsame : m = inside 0 := by
    clear hm
    induction w with
    | nil => exact Option.some.inj hrest
    | cons x w ih =>
      obtain ⟨hx, hw⟩ := List.forall_mem_cons.mp hw
      have hrest' := (crossed_cons.mp hrest).2
      rw [after_blank hsound hx] at hrest'
      exact ih hw hrest'
  subst hsame
  refine ⟨hm, ?_⟩
  clear hm hsound
  induction w with
  | nil => simp
  | cons x w ih =>
    obtain ⟨hx, hw⟩ := List.forall_mem_cons.mp hw
    obtain ⟨hnot, hrest⟩ := crossed_cons.mp hrest
    have hspace : isSpace x = true := by
      cases h : isSpace x with
      | true => rfl
      | false => exact absurd (.inr ⟨rfl, hx, h⟩) hnot
    rw [after_space hspace] at hrest
    exact List.forall_mem_cons.mpr ⟨hspace, ih hw hrest⟩

theorem branchesFrom_ne_nil (n : Nesting) (s : List Char) : branchesFrom n s ≠ [] := by
  cases s with
  | nil => simp [branchesFrom]
  | cons x s =>
    rw [branchesFrom]
    split
    · simp
    · split <;> simp

/-- A character that ends no branch is part of the first one. -/
theorem branchesFrom_cons {x : Char} (hx : n.endsBranch x = false) (s : List Char) :
    branchesFrom n (x :: s) = (branchesFrom (n.after x) s).modifyHead (x :: ·) := by
  rw [branchesFrom, hx]
  cases h : branchesFrom (n.after x) s with
  | nil => exact absurd h (branchesFrom_ne_nil _ _)
  | cons first more => rfl

theorem endsBranch_of_blank {x : Char} (hx : isBlank x = true) (n : Nesting) :
    n.endsBranch x = false := by
  have hne : x ≠ '|' := by
    rintro rfl
    exact absurd hx (by decide)
  simp [Nesting.endsBranch, hne]

theorem branchesFrom_of_blanks (hw : ∀ x ∈ w, isBlank x = true) (n : Nesting) :
    branchesFrom n w = [w] := by
  induction w generalizing n with
  | nil => rfl
  | cons x w ih =>
    obtain ⟨hx, hw⟩ := List.forall_mem_cons.mp hw
    rw [branchesFrom_cons (endsBranch_of_blank hx n), ih hw]
    rfl

/-- Blanks in front of a query do not change its branches but for blanks around them. -/
theorem branches_blanks_append (hw : ∀ x ∈ w, isBlank x = true) (s : List Char) :
    (branches (w ++ s)).map trim = (branches s).map trim := by
  have hfirst : branches (w ++ s) = (branches s).modifyHead (w ++ ·) := by
    unfold branches
    induction w with
    | nil =>
      rw [List.nil_append]
      cases branchesFrom {} s <;> rfl
    | cons x w ih =>
      obtain ⟨hx, hw⟩ := List.forall_mem_cons.mp hw
      rw [List.cons_append, branchesFrom_cons (endsBranch_of_blank hx _),
        after_blank (fun _ h => by simp at h) hx, ih hw, List.modifyHead_modifyHead]
      rfl
  rw [hfirst]
  cases branches s with
  | nil => rfl
  | cons first more => simp [trim_blanks_append hw]

/-- Blanks behind a query belong to its last branch. -/
theorem branchesFrom_append_blanks (hw : ∀ x ∈ w, isBlank x = true) (n : Nesting)
    (s : List Char) : ∃ before last, branchesFrom n s = before ++ [last] ∧
      branchesFrom n (s ++ w) = before ++ [last ++ w] := by
  induction s generalizing n with
  | nil => exact ⟨[], [], rfl, branchesFrom_of_blanks hw n⟩
  | cons x s ih =>
    cases hx : n.endsBranch x with
    | true =>
      obtain ⟨before, last, hs, hsw⟩ := ih n
      refine ⟨[] :: before, last, ?_, ?_⟩
      · rw [branchesFrom, hx, hs]
        rfl
      · rw [List.cons_append, branchesFrom, hx, hsw]
        rfl
    | false =>
      obtain ⟨before, last, hs, hsw⟩ := ih (n.after x)
      rw [List.cons_append, branchesFrom_cons hx, branchesFrom_cons hx, hs, hsw]
      cases before with
      | nil => exact ⟨[], x :: last, rfl, rfl⟩
      | cons first before => exact ⟨(x :: first) :: before, last, rfl, rfl⟩

theorem branches_append_blanks (hw : ∀ x ∈ w, isBlank x = true) (s : List Char) :
    (branches (s ++ w)).map trim = (branches s).map trim := by
  obtain ⟨before, last, hs, hsw⟩ := branchesFrom_append_blanks hw {} s
  rw [branches, branches, hs, hsw, List.map_append, List.map_append, List.map_singleton,
    List.map_singleton, trim_append_blanks hw]

/-- The branches of a text that goes on with a bar behind the first one. -/
theorem branches_at_bar (hc : crossed (inside 0) c = some (inside 0)) (ht : skipSpace t = '|' :: s) :
    (branches (c ++ t)).map trim = trim c :: (branches (skipSpace s)).map trim := by
  have hspaces : ∀ x ∈ t.takeWhile isSpace, isSpace x = true := fun x => List.mem_takeWhile_imp
  have hblanks : ∀ x ∈ s.takeWhile isSpace, isBlank x = true := fun x hx =>
    isBlank_of_isSpace x (List.mem_takeWhile_imp hx)
  have hbefore : t.takeWhile isSpace ++ '|' :: s = t := by
    rw [← ht]
    exact List.takeWhile_append_dropWhile
  have hbehind : s.takeWhile isSpace ++ skipSpace s = s := List.takeWhile_append_dropWhile
  have hcrossed : crossed (inside 0) (c ++ t.takeWhile isSpace) = some (inside 0) := by
    rw [crossed_append, hc]
    exact crossed_spaces hspaces 0
  have hskip : (branches s).map trim = (branches (skipSpace s)).map trim := by
    rw [← branches_blanks_append hblanks (skipSpace s), hbehind]
  rw [← hbefore, ← List.append_assoc, branches_of_bar hcrossed, List.map_cons, hskip,
    trim_append_blanks fun x hx => isBlank_of_isSpace x (hspaces x hx)]

/-- A query has the same trimmed branches whether or not it is trimmed first. -/
theorem branches_trim (s : List Char) : (branches (trim s)).map trim = (branches s).map trim := by
  obtain ⟨w, hw, hblank, -⟩ := exists_trimEnd (trimStart s)
  have hstart : s = s.takeWhile isBlank ++ trimStart s := List.takeWhile_append_dropWhile.symm
  have hbefore : ∀ x ∈ s.takeWhile isBlank, isBlank x = true := fun x hx =>
    List.all_eq_true.mp List.all_takeWhile x hx
  calc (branches (trim s)).map trim
      = (branches (trim s ++ w)).map trim := (branches_append_blanks hblank _).symm
    _ = (branches (trimStart s)).map trim := by rw [trim, ← hw]
    _ = (branches (s.takeWhile isBlank ++ trimStart s)).map trim :=
        (branches_blanks_append hbefore _).symm
    _ = (branches s).map trim := by rw [← hstart]

/-- The first branch of a query begins like the query. -/
theorem head_trim_branch {x : Char} (hs : s.head? = some x) (hx : isBlank x = false)
    (hbar : x ≠ '|') : ∃ b ∈ (branches s).map trim, b.head? = some x := by
  obtain ⟨s, rfl⟩ := List.head?_eq_some_iff.mp hs
  have hends : ({} : Nesting).endsBranch x = false := by simp [Nesting.endsBranch, hbar]
  obtain ⟨first, more, hbranches⟩ := List.exists_cons_of_ne_nil
    (branchesFrom_ne_nil (({} : Nesting).after x) s)
  refine ⟨trim (x :: first), ?_, ?_⟩
  · rw [branches, branchesFrom_cons hends, hbranches]
    exact List.mem_cons_self
  · have hhead : ∀ y ∈ (x :: first).head?, isBlank y = false := by simpa using hx
    rw [trim, trimStart_of_head hhead, head_trimEnd hhead]
    rfl

end MarkupQuery.Query
