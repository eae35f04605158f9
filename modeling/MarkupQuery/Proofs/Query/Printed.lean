import MarkupQuery.Proofs.Query.WrittenPaths

namespace MarkupQuery.Query

open MarkupQuery.Text

variable {numeral : Float → Numeral} {e left right : Expr} {op : BinaryOp}

/-- The text of an expression is read at its level, and as a chain if it is an operation. -/
structure Expr.Readable (numeral : Float → Numeral) (e : Expr) : Prop where
  reads : Reads e.level (e.text numeral) e (e.readLast numeral)
  chains : ∀ op : BinaryOp, e.level = op.level →
    Chains op.level (e.text numeral) e (e.readLast numeral)

theorem level_le (e : Expr) : e.level ≤ 10 := by
  cases e with
  | binary op left right => exact Nat.le_trans op.level_le (by omega)
  | _ => simp [Expr.level]

theorem Expr.Readable.of_reads (h : Reads e.level (e.text numeral) e (e.readLast numeral))
    (hl : e.level = 6 ∨ 8 ≤ e.level) : e.Readable numeral where
  reads := h
  chains op hop := by
    rw [hop] at hl
    cases op <;> simp [BinaryOp.level] at hl

namespace Expr.Readable

theorem grouped (h : e.Readable numeral) {l : Nat} (hl : l ≤ 10) :
    Reads l (Query.grouped l e.level (e.text numeral)) e
      (if e.level < l then e else e.readLast numeral) := h.reads.grouped (level_le e) hl

/-- On the left of an operator an operation of the same level needs no parentheses. -/
theorem chains_grouped (h : e.Readable numeral) (op : BinaryOp) :
    ∃ last, Chains op.level (Query.grouped op.level e.level (e.text numeral)) e last := by
  have hlevel := op.level_le
  by_cases hop : e.level = op.level
  · rw [hop, Query.grouped, if_neg (Nat.lt_irrefl _)]
    exact ⟨_, h.chains op hop⟩
  -- at another level the left operand needs parentheses where the right one does
  · have hsame : Query.grouped op.level e.level (e.text numeral) =
        Query.grouped (op.level + 1) e.level (e.text numeral) := by
      have hiff : e.level < op.level ↔ e.level < op.level + 1 := by omega
      simp only [Query.grouped, hiff]
    rw [hsame]
    exact ⟨_, (h.grouped (by omega)).chains⟩

theorem binary (hleft : left.Readable numeral) (hright : right.Readable numeral) (op : BinaryOp) :
    (Expr.binary op left right).Readable numeral := by
  have hlevel := op.level_le
  obtain ⟨last, hchain⟩ := hleft.chains_grouped op
  have hoperand := hright.grouped (l := op.level + 1) (by omega)
  have hchains : Chains op.level ((Expr.binary op left right).text numeral)
      (.binary op left right) ((Expr.binary op left right).readLast numeral) := by
    rw [Expr.text, Expr.readLast]
    exact hchain.binary hoperand
  have hstands : Stands op.level ((Expr.binary op left right).text numeral) := by
    rw [Expr.text]
    refine (hleft.grouped (l := op.level) (by omega)).toStands.append ?_
    have htrimmed := hoperand.toStands.trimmed_append (' ' :: (op.word.toList ++ [' ']))
    simpa using htrimmed
  refine ⟨{ hstands with reads := fun rest => hchains.reads }, fun op' hop => ?_⟩
  have hlevels : op.level = op'.level := hop
  rwa [← hlevels]

end Expr.Readable

theorem Expr.Readable.of_self (h : Reads e.level (e.text numeral) e e)
    (hlast : e.readLast numeral = e) (hl : e.level = 6 ∨ 8 ≤ e.level) : e.Readable numeral :=
  .of_reads (by rwa [hlast]) hl

mutual

theorem Expr.readable : ∀ e : Expr, e.Printable numeral → e.Readable numeral
  | .literal value, h => by
    rw [Expr.Printable] at h
    have hread := reads_quotedText h
    rw [String.ofList_toList] at hread
    exact .of_self hread rfl (.inr (by simp [Expr.level]))
  | .number value, h => by
    rw [Expr.Printable] at h
    have hread := reads_numeral (numeral value)
    rw [h] at hread
    exact .of_reads hread (.inr (by simp [Expr.level]))
  | .relative steps, h => by
    rw [Expr.Printable] at h
    exact .of_self (reads_relative (stepsReadable steps h.2) h.1) rfl
      (.inr (Nat.le_refl _))
  | .absolute steps, h => by
    rw [Expr.Printable] at h
    have hsteps := (stepsReadable steps h).imp fun _ _ => WrittenStep.toStepText
    exact .of_self (reads_absolute hsteps) rfl (.inr (Nat.le_refl _))
  | .continued start steps, h => by
    rw [Expr.Printable] at h
    obtain ⟨hpath, hstart, hne, hsteps⟩ := h
    have hgrouped := (Expr.readable start hstart).grouped (l := 9) (by omega)
    exact .of_self (hgrouped.continued hpath
      ((stepsReadable steps hsteps).imp fun _ _ => WrittenStep.toStepText) hne) rfl
      (.inr (Nat.le_refl _))
  | .call name arguments, h => by
    rw [Expr.Printable] at h
    exact .of_self (reads_callText h.1 (allReadable arguments h.2)) rfl
      (.inr (by simp [Expr.level]))
  | .binary op left right, h => by
    rw [Expr.Printable] at h
    exact (Expr.readable left h.1).binary (Expr.readable right h.2) op
  | .negate operand, h => by
    rw [Expr.Printable] at h
    -- behind a sign only a union or what binds tighter stands without parentheses
    have hgrouped := (Expr.readable operand h).grouped (l := 7) (by omega)
    exact .of_reads hgrouped.negate (.inl rfl)
  | .filter operand predicates, h => by
    rw [Expr.Printable] at h
    obtain ⟨hoperand, hne, hpredicates⟩ := h
    have hgrouped := (Expr.readable operand hoperand).grouped (l := 10) (by omega)
    exact .of_self (hgrouped.filter (allReadable predicates hpredicates) hne) rfl
      (.inr (by simp [Expr.level]))

theorem Step.readable : ∀ st : Step, st.Printable numeral → WrittenStep (st.text numeral) st
  | .mk axis test predicates, h => by
    rw [Step.Printable] at h
    rw [Step.text]
    exact writtenStep_withAxis axis h.1 (allReadable predicates h.2)

theorem stepsReadable : ∀ steps : List Step, StepsPrintable numeral steps →
    List.Forall₂ WrittenStep (stepTexts numeral steps) steps
  | [], _ => .nil
  | st :: steps, h => by
    rw [StepsPrintable] at h
    exact .cons (Step.readable st h.1) (stepsReadable steps h.2)

theorem allReadable : ∀ es : List Expr, AllPrintable numeral es →
    List.Forall₂ Item (exprTexts numeral es) es
  | [], _ => .nil
  | e :: es, h => by
    rw [AllPrintable] at h
    have hread := (Expr.readable e h.1).reads.lower (Nat.zero_le _) (level_le e)
    exact .cons hread.item (allReadable es h.2)

end

theorem Numeral.lastValue_of_not_mixed {n : Numeral} (h : n.isMixed = false) :
    n.lastValue = n.value := by
  simp [Numeral.lastValue, h]

theorem readLast_of_not_mixed : ∀ e : Expr, e.Printable numeral → e.endsMixed numeral = false →
    e.readLast numeral = e
  | .number value, hp, h => by
    rw [Expr.Printable] at hp
    rw [Expr.endsMixed] at h
    rw [Expr.readLast, Numeral.lastValue_of_not_mixed h, hp]
  | .binary op left right, hp, h => by
    rw [Expr.Printable] at hp
    rw [Expr.endsMixed] at h
    rw [Expr.readLast]
    split
    · rfl
    · rw [decide_eq_true (by omega), Bool.true_and] at h
      rw [readLast_of_not_mixed right hp.2 h]
  | .negate operand, hp, h => by
    rw [Expr.Printable] at hp
    rw [Expr.endsMixed] at h
    rw [Expr.readLast]
    split
    · rfl
    · rw [decide_eq_true (by omega), Bool.true_and] at h
      rw [readLast_of_not_mixed operand hp h]
  | .literal _, _, _ | .relative _, _, _ | .absolute _, _, _ | .continued _ _, _, _
  | .call _ _, _, _ | .filter _ _, _, _ => rfl

theorem parse_text_last (h : e.Printable numeral) :
    parse (String.ofList (e.text numeral)) = .ok (e.readLast numeral) :=
  ((Expr.readable e h).reads.lower (Nat.zero_le _) (level_le e)).parse

/-- Parsing undoes printing, unless the text ends with a numeral that has digits on both sides of the
point: that numeral loses its fraction. -/
theorem parse_text (h : e.Printable numeral) :
    parse (String.ofList (e.text numeral)) = .ok (e.readLast numeral) ∧
      (e.endsMixed numeral = false → parse (String.ofList (e.text numeral)) = .ok e) := by
  refine ⟨parse_text_last h, fun hmixed => ?_⟩
  rw [parse_text_last h, readLast_of_not_mixed e h hmixed]

def oneAndHalf : Numeral where
  whole := ['1']
  fraction := ['5']
  whole_digits := by simp
  fraction_digits := by simp
  nonempty := by simp

def half : Numeral where
  whole := []
  fraction := ['5']
  whole_digits := Numeral.digits_nil
  fraction_digits := by simp
  nonempty := by simp

def halves (x : Float) : Numeral := if x = half.value then half else oneAndHalf

def sampleDifference : Expr :=
  .binary .minus (.binary .minus (.number oneAndHalf.value) (.number half.value))
    (.continued (.filter (.relative [.mk .child (.name none "a") []]) [.number oneAndHalf.value])
      [.mk .descendant (.type .text) []])

theorem parse_text_difference : sampleDifference.Printable halves ∧
    sampleDifference.endsMixed halves = false ∧
    parse "1.5 - .5 - (child::a)[1.5]/descendant::text()" = .ok sampleDifference := by
  have hprintable : sampleDifference.Printable halves := by
    simp only [sampleDifference, Expr.Printable, StepsPrintable, AllPrintable, Step.Printable,
      NodeTest.Printable, Expr.isPath]
    decide +kernel
  have hmixed : sampleDifference.endsMixed halves = false := rfl
  have htext : String.ofList (sampleDifference.text halves) =
      "1.5 - .5 - (child::a)[1.5]/descendant::text()" := by
    decide +kernel
  refine ⟨hprintable, hmixed, ?_⟩
  rw [← htext]
  exact (parse_text hprintable).2 hmixed

/-- A numeral that a query ends with is not read as its value. -/
theorem fraction_lost : (Expr.number oneAndHalf.value).Printable halves ∧
    String.ofList ((Expr.number oneAndHalf.value).text halves) = "1.5" ∧
    parse "1.5" ≠ .ok (.number oneAndHalf.value) := by
  have hprintable : (Expr.number oneAndHalf.value).Printable halves := by
    simp only [Expr.Printable]
    decide +kernel
  have htext : String.ofList ((Expr.number oneAndHalf.value).text halves) = "1.5" := by
    decide +kernel
  have hvalue : (halves oneAndHalf.value).lastValue ≠ oneAndHalf.value := by decide +kernel
  refine ⟨hprintable, htext, fun h => ?_⟩
  have hlast := parse_text_last hprintable
  rw [htext, h] at hlast
  exact hvalue (Expr.number.inj (Except.ok.inj hlast)).symm

end MarkupQuery.Query
