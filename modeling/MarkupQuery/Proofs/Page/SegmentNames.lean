import MarkupQuery.Proofs.Page.Segments
import MarkupQuery.Proofs.Query.BrokenSteps
import MarkupQuery.Proofs.Xml.Names

namespace MarkupQuery.Tree

open MarkupQuery.Query MarkupQuery.Text

variable {segment : Segment} {segments : List Segment} {test : SegmentTest} {name : String}
  {qualifier : Option String}

/-- What queries have a step for: anything but an instruction, under a name that they can read. -/
structure SegmentTest.Legible (test : SegmentTest) : Prop where
  noInstruction : test.isInstruction = false
  name : ∀ name ∈ test.name?, IsPlain name

instance (test : SegmentTest) : Decidable test.Legible :=
  decidable_of_iff (test.isInstruction = false ∧ ∀ name ∈ test.name?, IsPlain name)
    ⟨fun h => ⟨h.1, h.2⟩, fun h => ⟨h.noInstruction, h.name⟩⟩

section Trimming

/-- A name without the blanks at its end. One blank can stand in the names of markup. -/
def trimmedName (name : String) : String := String.ofList (trimEnd name.toList)

def SegmentTest.trimmed : SegmentTest → SegmentTest
  | .element qualifier name uri => .element qualifier (trimmedName name) uri
  | .attribute qualifier name uri => .attribute qualifier (trimmedName name) uri
  | test => test

def Segment.trimmed (segment : Segment) : Segment :=
  match segment.position with
  | some _ => segment
  | none => { segment with test := segment.test.trimmed }

def trimmedLast : List Segment → List Segment
  | [] => []
  | [segment] => [segment.trimmed]
  | segment :: next :: more => segment :: trimmedLast (next :: more)

theorem trimmedLast_ne_nil (h : segments ≠ []) : trimmedLast segments ≠ [] := by
  unfold trimmedLast
  split
  · exact absurd rfl h
  · simp
  · simp

def qualifierText : Option String → List Char
  | none => []
  | some qualifier => qualifier.toList ++ [':']

theorem toList_qualify_eq_append (qualifier : Option String) (name : String) :
    (qualify qualifier name).toList = qualifierText qualifier ++ name.toList := by
  cases qualifier <;> simp [qualify, qualifierText]

theorem last_qualifierText (qualifier : Option String) :
    ∀ x ∈ (qualifierText qualifier).getLast?, isBlank x = false := by
  cases qualifier with
  | none => simp [qualifierText]
  | some q => exact last_concat rfl q.toList

theorem last_at_qualifierText (qualifier : Option String) :
    ∀ x ∈ ('@' :: qualifierText qualifier).getLast?, isBlank x = false := by
  cases qualifier with
  | none => exact last_concat rfl []
  | some q => exact last_concat rfl ('@' :: q.toList)

theorem SegmentTest.toList_render_element (qualifier : Option String) (name : String)
    (uri : Option String) : (SegmentTest.element qualifier name uri).render.toList =
      qualifierText qualifier ++ name.toList := toList_qualify_eq_append qualifier name

theorem SegmentTest.toList_render_attribute (qualifier : Option String) (name : String)
    (uri : Option String) : (SegmentTest.attribute qualifier name uri).render.toList =
      '@' :: (qualifierText qualifier ++ name.toList) := by
  change ("@" ++ qualify qualifier name).toList = _
  rw [String.toList_append, toList_qualify_eq_append]
  rfl

theorem SegmentTest.toList_render_instruction (target : String) :
    (SegmentTest.instruction target).render.toList =
      NodeType.instruction.word.toList ++ '(' :: '\'' :: (target.toList ++ ['\'', ')']) := by
  have hopen : "processing-instruction('".toList =
      NodeType.instruction.word.toList ++ ['(', '\''] := rfl
  have happend : ∀ a b c : String, (a ++ b ++ c).toList = a.toList ++ b.toList ++ c.toList := by
    simp
  refine (happend "processing-instruction('" target "')").trans ?_
  rw [hopen]
  simp

theorem SegmentTest.trimEnd_render (test : SegmentTest) :
    trimEnd test.render.toList = test.trimmed.render.toList := by
  cases test with
  | element qualifier name uri =>
    rw [SegmentTest.trimmed, toList_render_element, toList_render_element,
      trimEnd_append_of_last (last_qualifierText qualifier), trimmedName, String.toList_ofList]
  | «attribute» qualifier name uri =>
    rw [SegmentTest.trimmed, toList_render_attribute, toList_render_attribute, ← List.cons_append,
      trimEnd_append_of_last (last_at_qualifierText qualifier), trimmedName, String.toList_ofList]
    rfl
  | text => exact trimEnd_concat rfl "text(".toList
  | comment => exact trimEnd_concat rfl "comment(".toList
  | instruction target =>
    have hlast := trimEnd_concat (show isBlank ')' = false from rfl)
      (NodeType.instruction.word.toList ++ '(' :: '\'' :: (target.toList ++ ['\'']))
    have htext : (SegmentTest.instruction target).render.toList =
        NodeType.instruction.word.toList ++ '(' :: '\'' :: (target.toList ++ ['\'']) ++ [')'] := by
      rw [toList_render_instruction]
      simp
    rw [← htext] at hlast
    exact hlast

theorem Segment.trimEnd_render (segment : Segment) :
    trimEnd segment.render.toList = segment.trimmed.render.toList := by
  obtain ⟨test, position⟩ := segment
  cases position with
  | none => simpa [Segment.render, Segment.trimmed] using test.trimEnd_render
  | some k =>
    have htext : (Segment.render ⟨test, some k⟩).toList =
        (test.render.toList ++ '[' :: (toString k).toList) ++ [']'] := by
      simp [Segment.render]
    rw [Segment.trimmed, htext, trimEnd_concat rfl]

abbrev slashedSegments (segments : List Segment) : List Char :=
  slashed (segments.map fun segment => segment.render.toList)

theorem trimEnd_slashedSegments (segments : List Segment) :
    trimEnd (slashedSegments segments) = slashedSegments (trimmedLast segments) := by
  induction segments using trimmedLast.induct with
  | case1 => rfl
  | case2 segment =>
    have hlast := trimEnd_append_of_last (last_concat (show isBlank '/' = false from rfl) [])
      segment.render.toList
    rw [segment.trimEnd_render] at hlast
    simpa [slashed, trimmedLast] using hlast
  | case3 segment next more ih =>
    have hne : trimEnd (slashedSegments (next :: more)) ≠ [] := by
      rw [ih]
      obtain ⟨last, rest, hlast⟩ := List.exists_cons_of_ne_nil
        (trimmedLast_ne_nil (List.cons_ne_nil next more))
      simp [hlast, slashed]
    have hrest := trimEnd_append ('/' :: segment.render.toList) hne
    rw [ih] at hrest
    exact hrest

theorem toList_renderAddress_of_ne_nil (h : segments ≠ []) :
    (renderAddress segments).toList = slashedSegments segments := by
  obtain ⟨segment, more, rfl⟩ := List.exists_cons_of_ne_nil h
  rw [toList_renderAddress, List.map_cons, joinWith_slash]
  rfl

/-- Only the last segment of an address changes when its text is trimmed. -/
theorem trim_renderAddress (h : segments ≠ []) :
    trim (renderAddress segments).toList = slashedSegments (trimmedLast segments) := by
  rw [toList_renderAddress_of_ne_nil h, ← trimEnd_slashedSegments, trim, trimStart_of_head]
  obtain ⟨segment, more, rfl⟩ := List.exists_cons_of_ne_nil h
  rintro x ⟨⟩
  rfl

end Trimming

section Reading

structure SegmentTest.FromMarkup (test : SegmentTest) : Prop where
  qualifier : ∀ q ∈ test.qualifier, IsPlain q
  name : ∀ name ∈ test.name?, Xml.IsName name

theorem isNameStart_of_xml {c : Char} (h : Xml.isNameStart c = true) :
    Query.isNameStart c = true ∨ 128 ≤ c.toNat := by
  by_cases hascii : c.toNat < 128
  · simp only [Xml.isNameStart, hascii, if_true] at h
    simp only [Query.isNameStart, isLetter, hascii, if_true]
    exact .inl h
  · exact .inr (Nat.le_of_not_lt hascii)

theorem isNameChar_of_xml {c : Char} (h : Xml.isNameChar c = true) :
    Query.isNameChar c = true ∨ 128 ≤ c.toNat := by
  by_cases hascii : c.toNat < 128
  · have hstart := fun h => (isNameStart_of_xml (c := c) h).resolve_right (by omega)
    simp only [Xml.isNameChar, Bool.or_eq_true, beq_iff_eq, Bool.and_eq_true, decide_eq_true_eq] at h
    have hsmall : c.toNat ≠ 0xB7 ∧ ¬ 0x300 ≤ c.toNat ∧ ¬ 0x203F ≤ c.toNat := by omega
    simp only [hsmall, false_and, or_false] at h
    refine .inl ?_
    rcases h with ((h | h) | h) | h
    · exact isNameChar_of_isNameStart (hstart h)
    · simp [Query.isNameChar, isLetterOrNumeral, isNumeral, hascii, h]
    · simp [Query.isNameChar, h]
    · simp [Query.isNameChar, h]
  · exact .inr (Nat.le_of_not_lt hascii)

theorem nearName_of_isName (h : Xml.IsName name) : IsNearName name := by
  obtain ⟨c, hc, hstart⟩ := h.head_mem
  obtain ⟨cs, hname⟩ := List.head?_eq_some_iff.mp hc
  have hcs := h.continues
  rw [hname] at hcs
  exact ⟨c, cs, hname, (isNameStart_of_xml hstart).imp_right .inr,
    fun x hx => isNameChar_of_xml (hcs x (List.mem_cons_of_mem c hx))⟩

theorem misreadHere_name (hq : ∀ q ∈ qualifier, IsPlain q) (h : Xml.IsName name)
    (hn : ¬ IsPlain name) (t : List Char) :
    MisreadHere (qualifierText qualifier ++ name.toList ++ t) := by
  cases qualifier with
  | none =>
    refine ((nearName_of_isName h).misread hn).here (fun c hc => ?_) t
    obtain ⟨x, hx, hstart⟩ := h.head_mem
    obtain rfl := Option.some.inj (hx.symm.trans hc)
    exact isNameStart_of_xml hstart
  | some q =>
    have hplain := hq q rfl
    have hmisread := (nearName_of_isName h).misread_qualified hplain hn
    rw [show qualifierText (some q) ++ name.toList = q.toList ++ ':' :: name.toList by
      simp [qualifierText]]
    refine hmisread.here (fun c hc => ?_) t
    obtain ⟨x, hx, hstart⟩ := hplain.head (':' :: name.toList)
    obtain rfl := Option.some.inj (hx.symm.trans hc)
    exact .inl hstart

theorem isName_trimmedName (h : Xml.IsName name) (hne : trimEnd name.toList ≠ []) :
    Xml.IsName (trimmedName name) := by
  obtain ⟨w, hw, -, -⟩ := exists_trimEnd name.toList
  obtain ⟨c, cs, hcs⟩ := List.exists_cons_of_ne_nil hne
  obtain ⟨x, hx, hstart⟩ := h.head_mem
  have hhead : name.toList.head? = some c := by rw [hw, hcs]; rfl
  obtain rfl := Option.some.inj (hx.symm.trans hhead)
  refine ⟨?_, fun y hy => h.continues y ?_⟩
  · rw [trimmedName, String.toList_ofList, hcs]
    exact hstart
  · rw [trimmedName, String.toList_ofList] at hy
    rw [hw]
    exact List.mem_append_left w hy

/-- Of the last name, the prefix alone may be left. -/
theorem misreadHere_trimmedName (hq : ∀ q ∈ qualifier, IsPlain q) (h : Xml.IsName name)
    (hn : ¬ IsPlain (trimmedName name)) :
    MisreadHere (qualifierText qualifier ++ (trimmedName name).toList) := by
  by_cases hempty : trimEnd name.toList = []
  · rw [trimmedName, String.toList_ofList, hempty, List.append_nil]
    cases qualifier with
    | none => exact misreadHere_nil
    | some q => exact misreadHere_of_qualifier (hq q rfl)
  · have hmisread := misreadHere_name hq (isName_trimmedName h hempty) hn []
    rwa [List.append_nil] at hmisread

theorem isPlain_instruction : IsPlain NodeType.instruction.word := by
  decide +kernel

theorem misreadHere_instruction (s : List Char) :
    MisreadHere (NodeType.instruction.word.toList ++ '(' :: '\'' :: s) := by
  have hmisread : Misread (NodeType.instruction.word.toList ++ '(' :: '\'' :: s) :=
    misread_of_open isPlain_instruction (fun _ => rfl) fun _ => rfl
  have hhere := hmisread.here (fun c hc => ?_) []
  · rwa [List.append_nil] at hhere
  · obtain ⟨x, hx, hstart⟩ := isPlain_instruction.head ('(' :: '\'' :: s)
    obtain rfl := Option.some.inj (hx.symm.trans hc)
    exact .inl hstart

/-- No query has a step for an instruction by its target. -/
theorem SegmentTest.FromMarkup.brokenStep (h : test.FromMarkup) (hn : ¬ test.Legible)
    (t : List Char) : BrokenStep (test.render.toList ++ t) := by
  match test, h with
  | .element qualifier name uri, h =>
    have hmisread := misreadHere_name h.qualifier (h.name name rfl)
      (fun hp => hn ⟨rfl, by rintro _ ⟨⟩; exact hp⟩) t
    rw [toList_render_element]
    exact hmisread.brokenStep
  | .attribute qualifier name uri, h =>
    have hmisread := misreadHere_name h.qualifier (h.name name rfl)
      (fun hp => hn ⟨rfl, by rintro _ ⟨⟩; exact hp⟩) t
    rw [toList_render_attribute]
    exact hmisread.brokenStep_at
  | .text, _ | .comment, _ => exact absurd ⟨rfl, by simp [name?]⟩ hn
  | .instruction target, _ =>
    rw [toList_render_instruction, List.append_assoc]
    exact (misreadHere_instruction _).brokenStep

theorem SegmentTest.FromMarkup.brokenStep_trimmed (h : test.FromMarkup)
    (hn : ¬ test.trimmed.Legible) : BrokenStep test.trimmed.render.toList := by
  match test, h with
  | .element qualifier name uri, h =>
    have hmisread := misreadHere_trimmedName h.qualifier (h.name name rfl)
      fun hp => hn ⟨rfl, by rintro _ ⟨⟩; exact hp⟩
    rw [trimmed, toList_render_element]
    exact hmisread.brokenStep
  | .attribute qualifier name uri, h =>
    have hmisread := misreadHere_trimmedName h.qualifier (h.name name rfl)
      fun hp => hn ⟨rfl, by rintro _ ⟨⟩; exact hp⟩
    rw [trimmed, toList_render_attribute]
    exact hmisread.brokenStep_at
  | .text, h | .comment, h | .instruction _, h =>
    have hbroken := h.brokenStep hn []
    rwa [List.append_nil] at hbroken

theorem SegmentTest.Legible.stepText (h : segment.test.Legible)
    (hq : ∀ q ∈ segment.test.qualifier, IsPlain q) :
    ∃ st, StepText segment.render.toList st :=
  ⟨_, Segment.stepText (SegmentTest.printable hq h.name) h.noInstruction fun k _ => item_ofNat k⟩

theorem SegmentTest.qualifier_trimmed (test : SegmentTest) :
    test.trimmed.qualifier = test.qualifier := by
  cases test <;> rfl

theorem Segment.qualifier_trimmed (segment : Segment) :
    segment.trimmed.test.qualifier = segment.test.qualifier := by
  unfold Segment.trimmed
  split
  · rfl
  · exact segment.test.qualifier_trimmed

theorem Segment.toList_render (segment : Segment) : ∃ s,
    segment.render.toList = segment.test.render.toList ++ s :=
  ⟨_, String.toList_append⟩

theorem Segment.brokenStep (h : segment.test.FromMarkup) (hn : ¬ segment.test.Legible)
    (t : List Char) : BrokenStep (segment.render.toList ++ t) := by
  obtain ⟨s, hs⟩ := segment.toList_render
  rw [hs, List.append_assoc]
  exact h.brokenStep hn _

theorem Segment.brokenStep_trimmed (h : segment.test.FromMarkup)
    (hn : ¬ segment.trimmed.test.Legible) : BrokenStep segment.trimmed.render.toList := by
  obtain ⟨test, position⟩ := segment
  cases position with
  | none =>
    have hbroken := h.brokenStep_trimmed hn
    simpa [Segment.trimmed, Segment.render] using hbroken
  | some k =>
    have hbroken := Segment.brokenStep h hn []
    rwa [List.append_nil] at hbroken

/-- Every segment of a trimmed address is read or broken. -/
theorem decided_trimmedLast (h : ∀ segment ∈ segments, segment.test.FromMarkup) :
    Decided (fun segment : Segment => segment.test.Legible) (fun segment => segment.render.toList)
      (trimmedLast segments) := by
  induction segments using trimmedLast.induct with
  | case1 => exact .nil
  | case2 segment =>
    have hsegment := h segment List.mem_cons_self
    by_cases hl : segment.trimmed.test.Legible
    · obtain ⟨st, hst⟩ := hl.stepText (segment.qualifier_trimmed ▸ hsegment.qualifier)
      exact .read hl hst .nil
    · have hbroken := Segment.brokenStep_trimmed hsegment hl
      exact .broken hl (by simpa [slashed] using hbroken) .nil
  | case3 segment next more ih =>
    obtain ⟨hsegment, hmore⟩ := List.forall_mem_cons.mp h
    rw [trimmedLast]
    by_cases hl : segment.test.Legible
    · obtain ⟨st, hst⟩ := hl.stepText hsegment.qualifier
      exact .read hl hst (ih hmore)
    · exact .broken hl (Segment.brokenStep hsegment hl _) (ih hmore)

/-- An address is parsed if its segments are legible, what is trimmed apart, or if only a slash is
left of it. -/
theorem parse_renderAddress_iff (h : ∀ segment ∈ segments, segment.test.FromMarkup) :
    (∃ e, Query.parse (renderAddress segments) = .ok e) ↔
      trim (renderAddress segments).toList = ['/'] ∨
        ∀ segment ∈ trimmedLast segments, segment.test.Legible := by
  by_cases hne : segments = []
  · subst hne
    have hroot := parse_renderAddress (List.forall_mem_nil Segment.Writable)
    exact iff_of_true ⟨_, hroot⟩ (.inl rfl)
  · simp only [parse_eq_ok, trim_renderAddress hne]
    exact (decided_trimmedLast h).expression_iff (trimmedLast_ne_nil hne)

end Reading

end MarkupQuery.Tree
