import MarkupQuery.Page.Search
import MarkupQuery.Proofs.Page.Registration
import MarkupQuery.Proofs.Query.Steps
import MarkupQuery.Proofs.Query.WrittenPaths

namespace MarkupQuery.Tree

open MarkupQuery.Query MarkupQuery.Text

namespace SegmentTest

def name? : SegmentTest → Option String
  | .element _ name _ | .attribute _ name _ => some name
  | .text | .comment | .instruction _ => none

def isInstruction : SegmentTest → Bool
  | .instruction _ => true
  | _ => false

def axis : SegmentTest → Axis
  | .attribute _ _ _ => .attribute
  | _ => .child

def nodeTest : SegmentTest → NodeTest
  | .element qualifier name _ | .attribute qualifier name _ => .name qualifier name
  | .text => .type .text
  | .comment => .type .comment
  | .instruction _ => .type .instruction

def resolved : SegmentTest → ResolvedTest
  | .element _ name uri | .attribute _ name uri => .name uri name
  | .text => .type .text
  | .comment => .type .comment
  | .instruction _ => .type .instruction

end SegmentTest

namespace SegmentTest

variable (qualifier : Option String) (test : SegmentTest)

@[simp] theorem axis_withQualifier : (test.withQualifier qualifier).axis = test.axis := by
  cases test <;> rfl

@[simp] theorem isInstruction_withQualifier :
    (test.withQualifier qualifier).isInstruction = test.isInstruction := by
  cases test <;> rfl

@[simp] theorem name?_withQualifier : (test.withQualifier qualifier).name? = test.name? := by
  cases test <;> rfl

variable {qualifier test} in
theorem mem_of_withQualifier {q : String} (h : q ∈ (test.withQualifier qualifier).qualifier) :
    q ∈ qualifier := by
  cases test with
  | element _ name uri => exact h
  | «attribute» _ name uri => exact h
  | text | comment | instruction _ => cases h

end SegmentTest

/-- A test is read as it is written if its prefix and its name are. -/
theorem SegmentTest.printable {test : SegmentTest} (hq : ∀ q ∈ test.qualifier, IsPlain q)
    (hname : ∀ name ∈ test.name?, IsPlain name) : test.nodeTest.Printable := by
  match test, hq, hname with
  | .element _ name _, hq, hname => exact ⟨hq, hname name rfl⟩
  | .attribute _ name _, hq, hname => exact ⟨hq, hname name rfl⟩
  | .text, _, _ | .comment, _, _ | .instruction _, _, _ => trivial

def Segment.step (segment : Segment) : Step :=
  .mk segment.test.axis segment.test.nodeTest
    (segment.position.map fun k => Expr.number (Float.ofNat k)).toList

/-- A segment whose test is read as it is written. The name of the instruction in a test would be
lost. -/
structure Segment.Writable (segment : Segment) : Prop where
  test : segment.test.nodeTest.Printable
  noInstruction : segment.test.isInstruction = false
  position : ∀ k ∈ segment.position, 0 < k ∧ k < 2 ^ 53

theorem toList_qualify (qualifier : Option String) (name : String) :
    (qualify qualifier name).toList = (NodeTest.name qualifier name).text := by
  cases qualifier <;> simp [qualify, NodeTest.text]

theorem SegmentTest.headText {test : SegmentTest} (h : test.nodeTest.Printable)
    (hi : test.isInstruction = false) :
    HeadText test.render.toList test.axis test.nodeTest := by
  match test with
  | .element qualifier name uri =>
    have htext : (SegmentTest.element qualifier name uri).render.toList =
        (NodeTest.name qualifier name).text := toList_qualify qualifier name
    rw [htext]
    exact headText_child h
  | .attribute qualifier name uri =>
    have htext : (SegmentTest.attribute qualifier name uri).render.toList =
        '@' :: (NodeTest.name qualifier name).text := by
      change ("@" ++ qualify qualifier name).toList = _
      rw [String.toList_append, toList_qualify]
      simp
    rw [htext]
    exact headText_attribute h
  | .text => exact headText_child h
  | .comment => exact headText_child h
  | .instruction target => simp [isInstruction] at hi

/-- A segment is read as a step, if the number in its brackets is read. -/
theorem Segment.stepText {segment : Segment} {read : Nat → Expr}
    (h : segment.test.nodeTest.Printable) (hi : segment.test.isInstruction = false)
    (hread : ∀ k ∈ segment.position, Item (toString k).toList (read k)) :
    StepText segment.render.toList
      (.mk segment.test.axis segment.test.nodeTest (segment.position.map read).toList) := by
  have hhead := SegmentTest.headText h hi
  obtain ⟨test, position⟩ := segment
  cases position with
  | none =>
    have htext : (Segment.render ⟨test, none⟩).toList = test.render.toList ++ predicatesText [] := by
      simp [Segment.render, predicatesText]
    rw [htext]
    exact hhead.stepText .nil
  | some k =>
    have htext : (Segment.render ⟨test, some k⟩).toList =
        test.render.toList ++ predicatesText [(toString k).toList] := by
      simp [Segment.render, predicatesText]
    rw [htext]
    exact hhead.stepText (.cons (hread k rfl) .nil)

theorem Segment.Writable.stepText {segment : Segment} (h : segment.Writable) :
    StepText segment.render.toList segment.step :=
  Segment.stepText h.test h.noInstruction fun k hk =>
    item_position (h.position k hk).2 (h.position k hk).1

theorem toList_renderAddress (segments : List Segment) :
    (renderAddress segments).toList =
      '/' :: joinWith ['/'] (segments.map fun segment => segment.render.toList) := by
  cases segments with
  | nil => rfl
  | cons segment segments =>
    rw [List.map_cons, joinWith_slash]
    simp [renderAddress, String.toList_join, slashed, List.flatMap_map]

/-- An address is parsed as the path of its steps. -/
theorem parse_renderAddress {segments : List Segment} (h : ∀ s ∈ segments, s.Writable) :
    Query.parse (renderAddress segments) = .ok (.absolute (segments.map Segment.step)) := by
  have hsteps : List.Forall₂ StepText (segments.map fun segment => segment.render.toList)
      (segments.map Segment.step) := by
    rw [List.forall₂_map_left_iff, List.forall₂_map_right_iff, List.forall₂_same]
    exact fun segment hs => (h segment hs).stepText
  have hparse := ((reads_absolute hsteps).lower (Nat.zero_le _) (by decide)).parse
  rwa [← toList_renderAddress, String.ofList_toList] at hparse

end MarkupQuery.Tree

namespace MarkupQuery.Page

open MarkupQuery.Query MarkupQuery.Tree

variable {prefixes : PrefixTable} {segment used : Segment} {test : SegmentTest}
  {qualifier : Option String}

def Fitting (prefixes : PrefixTable) (test : SegmentTest) (qualifier : Option String) : Prop :=
  qualifier.map prefixes.uri? = test.namespaceUri.map some

/-- A name is written with its own prefix if that stands for the namespace, else with one that is
registered for it. -/
theorem usableQualifier_eq_ok {uri : String}
    (h : usableQualifier prefixes test uri = .ok qualifier) :
    ∃ q, qualifier = some q ∧ (prefixes.uri? q = some uri ∨ prefixes.qualifier? uri = some q) := by
  unfold usableQualifier at h
  split at h
  · rename_i hwritten
    obtain rfl := Except.ok.inj h
    obtain ⟨q, hq, hbound⟩ := Option.bind_eq_some_iff.mp (eq_of_beq hwritten)
    exact ⟨q, hq, .inl hbound⟩
  · split at h
    · rename_i q hfound
      obtain rfl := Except.ok.inj h
      exact ⟨q, rfl, .inr hfound⟩
    · cases h

theorem fitting_of_usableQualifier (hd : prefixes.Distinct) {uri : String}
    (huri : test.namespaceUri = some uri)
    (h : usableQualifier prefixes test uri = .ok qualifier) : Fitting prefixes test qualifier := by
  obtain ⟨q, rfl, hbound | hfound⟩ := usableQualifier_eq_ok h
  · simp [Fitting, hbound, huri]
  · simp [Fitting, hd.uri?_of_qualifier? hfound, huri]

/-- A segment gets a prefix of the table that stands for its namespace. -/
theorem usableSegment_eq_ok (hd : prefixes.Distinct)
    (hq : segment.test.qualifier.isSome → segment.test.namespaceUri.isSome)
    (h : usableSegment prefixes segment = .ok used) : ∃ qualifier,
      used = { segment with test := segment.test.withQualifier qualifier } ∧
        Fitting prefixes segment.test qualifier := by
  unfold usableSegment at h
  split at h
  · rename_i huri
    obtain rfl := Except.ok.inj h
    refine ⟨none, ?_, by simp [Fitting, huri]⟩
    obtain ⟨test, position⟩ := segment
    cases test <;> simp_all [SegmentTest.withQualifier, SegmentTest.qualifier,
      SegmentTest.namespaceUri]
  · rename_i uri huri
    obtain ⟨qualifier, husable, rfl⟩ := map_eq_ok.mp h
    exact ⟨qualifier, rfl, fitting_of_usableQualifier hd huri husable⟩

theorem resolveQualifier_of_uri? {q uri : String} (h : prefixes.uri? q = some uri) :
    resolveQualifier prefixes.entries q = .ok uri := by
  unfold resolveQualifier
  rw [show prefixes.entries.lookup q = some uri from h]

/-- With such a prefix a test asks for what it asked for before. -/
theorem Fitting.resolve (h : Fitting prefixes test qualifier) :
    (test.withQualifier qualifier).nodeTest.resolve prefixes.entries = .ok test.resolved := by
  have hnamed : ∀ (name : String) (uri : Option String), qualifier.map prefixes.uri? = uri.map some →
      (NodeTest.name qualifier name).resolve prefixes.entries = .ok (.name uri name) := by
    intro name uri huri
    cases qualifier with
    | none =>
      cases uri with
      | none => rfl
      | some uri => simp at huri
    | some q =>
      cases uri with
      | none => simp at huri
      | some uri =>
        have hbound : prefixes.uri? q = some uri := by simpa using huri
        simp [NodeTest.resolve, resolveQualifier_of_uri? hbound, Except.map]
  match test, h with
  | .element _ name uri, h => exact hnamed name uri h
  | .attribute _ name uri, h => exact hnamed name uri h
  | .text, _ | .comment, _ | .instruction _, _ => rfl

theorem Fitting.exists_uri (h : Fitting prefixes test qualifier) :
    ∀ q ∈ qualifier, ∃ uri, prefixes.uri? q = some uri := by
  rintro q rfl
  unfold Fitting at h
  cases huri : test.namespaceUri with
  | none => simp [huri] at h
  | some uri => exact ⟨uri, by simpa [huri] using h⟩

theorem Fitting.bound (h : Fitting prefixes test qualifier) :
    ∀ q ∈ (test.withQualifier qualifier).nodeTest.qualifiers,
      ∃ uri, prefixes.uri? q = some uri := by
  have hnamed : ∀ name, ∀ q ∈ (NodeTest.name qualifier name).qualifiers,
      ∃ uri, prefixes.uri? q = some uri := by
    intro name q hq
    cases qualifier with
    | none => simp [NodeTest.qualifiers] at hq
    | some p =>
      obtain rfl : q = p := by simpa [NodeTest.qualifiers] using hq
      exact h.exists_uri q rfl
  match test with
  | .element _ name uri => exact hnamed name
  | .attribute _ name uri => exact hnamed name
  | .text | .comment | .instruction _ =>
    simp [SegmentTest.withQualifier, SegmentTest.nodeTest, NodeTest.qualifiers]

theorem Fitting.printable (h : Fitting prefixes test qualifier)
    (hprefixes : ∀ entry ∈ prefixes.entries, IsPlain entry.1)
    (hname : ∀ name ∈ test.name?, IsPlain name) :
    (test.withQualifier qualifier).nodeTest.Printable := by
  refine SegmentTest.printable (fun q hq => ?_) (by simpa using hname)
  obtain ⟨uri, huri⟩ := h.exists_uri q (SegmentTest.mem_of_withQualifier hq)
  obtain ⟨entry, hentry, rfl⟩ := List.mem_map.mp (PrefixTable.mem_of_uri? huri)
  exact hprefixes entry hentry

end MarkupQuery.Page
