import MarkupQuery.Proofs.Tree.Reassembled
import MarkupQuery.Proofs.Tree.StartTags

namespace MarkupQuery.Tree

open MarkupQuery.Xml

variable {known more own outer scope ds : List Declaration} {d : Declaration} {q : String}
  {uri : Option String} {written : List Written} {done attributes : List Attribute}

def binds (ds : List Declaration) (qualifier : Option String) : Bool :=
  ds.any fun d => d.qualifier == qualifier

/-- The declarations that `scope` leaves in force. -/
def unbound (known scope : List Declaration) : List Declaration :=
  known.filter fun d => !binds scope d.qualifier

/-- Whether a declaration is one of `known`, which no declaration around it hides. -/
def repeats (known around : List Declaration) (d : Declaration) : Bool :=
  known.contains d && !binds around d.qualifier

structure ArePrefixes (known : List Declaration) : Prop extends IsScope known where
  qualifier : ∀ d ∈ known, d.qualifier.isSome

theorem ArePrefixes.distinct (h : ArePrefixes known) : Distinct known :=
  h.once.imp_of_mem fun ha _ hne => hne (h.qualifier _ ha)

@[simp] theorem binds_nil (qualifier : Option String) : binds [] qualifier = false := rfl

@[simp] theorem binds_append (ds more : List Declaration) (qualifier : Option String) :
    binds (ds ++ more) qualifier = (binds ds qualifier || binds more qualifier) := List.any_append

theorem binds_iff {qualifier : Option String} :
    binds ds qualifier = true ↔ ∃ d ∈ ds, d.qualifier = qualifier := by
  simp [binds]

theorem binds_of_mem (h : d ∈ ds) : binds ds d.qualifier = true :=
  List.any_eq_true.mpr ⟨d, h, beq_self_eq_true _⟩

theorem binds_eq_isSome (ds : List Declaration) (qualifier : Option String) :
    binds ds qualifier = (ds.find? fun d => d.qualifier == qualifier).isSome := by
  rw [Bool.eq_iff_iff, List.find?_isSome, binds, List.any_eq_true]

theorem mem_unbound : d ∈ unbound known scope ↔ d ∈ known ∧ binds scope d.qualifier = false := by
  simp [unbound]

theorem binds_extendScope (own outer : List Declaration) (qualifier : Option String) :
    binds (Document.extendScope own outer) qualifier =
      (binds own qualifier || binds outer qualifier) := by
  rw [binds_eq_isSome, find_extendScope, Option.isSome_or, ← binds_eq_isSome, ← binds_eq_isSome]

theorem binds_innerScope (own outer : List Declaration) (qualifier : Option String) :
    binds (innerScope own outer) qualifier = (binds own qualifier || binds outer qualifier) := by
  rw [binds_eq_isSome, find_innerScope, Option.isSome_or, ← binds_eq_isSome, ← binds_eq_isSome]

/-- What an element stores binds the prefixes that its scope binds anew. -/
theorem binds_stored (own outer : List Declaration) (qualifier : Option String) :
    (binds ((innerScope own outer).filter fun d => !outer.contains d) qualifier ||
      binds outer qualifier) = binds (innerScope own outer) qualifier := by
  rw [Bool.eq_iff_iff, Bool.or_eq_true]
  constructor
  · rintro (h | h)
    · obtain ⟨d, hd, rfl⟩ := binds_iff.mp h
      exact binds_of_mem (List.mem_of_mem_filter hd)
    · rw [binds_innerScope, h, Bool.or_true]
  · intro h
    obtain ⟨d, hd, rfl⟩ := binds_iff.mp h
    by_cases hout : d ∈ outer
    · exact .inr (binds_of_mem hout)
    · exact .inl (binds_of_mem (List.mem_filter.mpr ⟨hd, by simpa using hout⟩))

section Scopes

theorem extendScope_append (scope ds more : List Declaration) :
    Document.extendScope scope (ds ++ more) =
      Document.extendScope (Document.extendScope scope ds) more := by
  induction ds generalizing scope with
  | nil => rfl
  | cons d ds ih =>
    rw [List.cons_append, Document.extendScope, Document.extendScope, ih, ih]
    split <;> rfl

/-- Distinct declarations are added as far as the scope does not bind them. -/
theorem extendScope_of_distinct (h : Distinct more) (scope : List Declaration) :
    Document.extendScope scope more = scope ++ unbound more scope := by
  induction more generalizing scope with
  | nil => simp [Document.extendScope, unbound]
  | cons d more ih =>
    obtain ⟨hd, hmore⟩ := List.pairwise_cons.mp h
    rw [Document.extendScope, ih hmore, ih hmore]
    change (if binds scope d.qualifier then _ else _) = _
    split
    · rename_i hbound
      rw [unbound, unbound, List.filter_cons_of_neg (by simp [hbound])]
    · rename_i hfree
      have hothers : unbound more (scope ++ [d]) = unbound more scope :=
        List.filter_congr fun other hother => by
          have hne : (d.qualifier == other.qualifier) = false := by simpa using hd other hother
          simp [binds, hne]
      rw [hothers, unbound, unbound, List.filter_cons_of_pos (by simpa using hfree),
        List.append_assoc, List.singleton_append]

/-- What further declarations add to the scope around an element they add to the scope inside. -/
theorem innerScope_wider (h : Distinct known) (own outer : List Declaration) :
    innerScope own (outer ++ unbound known outer) =
      innerScope own outer ++ unbound known (innerScope own outer) := by
  unfold innerScope
  split
  · rfl
  · have hdistinct : Distinct (unbound known outer) := List.Pairwise.filter _ h
    rw [extendScope_append, extendScope_of_distinct hdistinct, unbound, unbound, List.filter_filter]
    congr 1
    refine List.filter_congr fun d _ => ?_
    rw [binds_extendScope]
    cases binds own d.qualifier <;> cases binds outer d.qualifier <;> rfl

end Scopes

section Names

variable (hmore : ∀ d ∈ more, d.qualifier.isSome)
include hmore

theorem lookup?_wider (h : lookup? scope q = some uri) :
    lookup? (scope ++ more) q = some uri := by
  unfold lookup? at h ⊢
  split_ifs at h ⊢
  · have hnone : more.find? (fun d => d.qualifier.isNone) = none :=
      List.find?_eq_none.mpr fun d hd => by simp [Option.isSome_iff_ne_none.mp (hmore d hd)]
    rwa [List.find?_append, hnone, Option.or_none]
  · obtain ⟨d, hfound, hd⟩ := Option.map_eq_some_iff.mp h
    rw [List.find?_append, hfound, Option.some_or, Option.map_some, hd]

theorem attributeNamespace?_wider (h : attributeNamespace? scope q = some uri) :
    attributeNamespace? (scope ++ more) q = some uri := by
  unfold attributeNamespace? at h ⊢
  split_ifs at h ⊢
  · exact h
  · exact h
  · exact lookup?_wider hmore h

omit hmore in
/-- The prefix of an attribute is looked for from the inside. -/
theorem attributeQualifier_wider (h : attributeNamespace? scope q = some uri) :
    uri.bind (attributeQualifier (scope ++ more)) = uri.bind (attributeQualifier scope) := by
  unfold attributeNamespace? lookup? at h
  split_ifs at h
  · obtain rfl := Option.some.inj h
    rfl
  · obtain rfl := Option.some.inj h
    rfl
  · obtain ⟨d, hfound, rfl⟩ := Option.map_eq_some_iff.mp h
    have hprefix : d.qualifier.isSome := by
      have hq : d.qualifier = some q := by simpa using List.find?_some hfound
      simp [hq]
    obtain ⟨first, hfirst⟩ : ∃ first, scope.find? (fun other =>
        other.uri == d.uri && other.qualifier.isSome) = some first :=
      Option.isSome_iff_exists.mp (List.find?_isSome.mpr
        ⟨d, List.mem_of_find?_eq_some hfound, by simpa using hprefix⟩)
    simp only [Option.bind_some, attributeQualifier, List.find?_append, hfirst, Option.some_or]

theorem resolvedAttributes?_wider (h : resolvedAttributes? scope done written = some attributes) :
    resolvedAttributes? (scope ++ more) done written = some attributes := by
  induction written generalizing done with
  | nil => exact h
  | cons w rest ih =>
    unfold resolvedAttributes? at h ⊢
    cases hn : attributeNamespace? scope w.name.qualifier with
    | none => simp [hn] at h
    | some uri =>
      rw [attributeNamespace?_wider hmore hn]
      simp only [hn] at h
      simp only [attributeQualifier_wider hn]
      split at h
      · cases h
      · rename_i hnew
        rw [if_neg hnew]
        exact ih h

end Names

def Element.yielding (known around : List Declaration) (e : Element) : Element :=
  { e with declarations := e.declarations.filter fun d => !repeats known around d }

/-- An element in a wider scope is the same but for declarations that it repeats. -/
theorem resolvedElement?_wider {e : Element} {name : QName} (hk : ArePrefixes known)
    (h : resolvedElement? outer own name written = some (e, scope)) :
    resolvedElement? (outer ++ unbound known outer) own name written =
      some (e.yielding known outer, scope ++ unbound known scope) := by
  have hmore : ∀ d ∈ unbound known (innerScope own outer), d.qualifier.isSome := fun d hd =>
    hk.qualifier d (mem_unbound.mp hd).1
  simp only [resolvedElement?, Option.bind_eq_bind, Option.bind_eq_some_iff, Option.pure_def,
    Option.some.injEq, Prod.mk.injEq] at h
  obtain ⟨attributes, hattributes, found, hfound, rfl, rfl⟩ := h
  -- what the wider scope has more was in force outside
  have hnone : (unbound known (innerScope own outer)).filter
      (fun d => !(outer ++ unbound known outer).contains d) = [] := by
    refine List.filter_eq_nil_iff.mpr fun d hd => ?_
    obtain ⟨hmem, hfree⟩ := mem_unbound.mp hd
    rw [binds_innerScope, Bool.or_eq_false_iff] at hfree
    simpa using fun _ => mem_unbound.mpr ⟨hmem, hfree.2⟩
  have hstored : (innerScope own outer ++ unbound known (innerScope own outer)).filter
      (fun d => !(outer ++ unbound known outer).contains d) =
        ((innerScope own outer).filter fun d => !outer.contains d).filter
          fun d => !repeats known outer d := by
    rw [List.filter_append, hnone, List.append_nil, List.filter_filter]
    refine List.filter_congr fun d _ => ?_
    simp [repeats, unbound, Bool.and_comm]
  simp only [resolvedElement?, innerScope_wider hk.distinct, resolvedAttributes?_wider hmore hattributes,
    lookup?_wider hmore hfound, Option.bind_eq_bind, Option.bind_some, Option.pure_def, hstored]
  rfl

theorem Element.yielding_congr {around around' : List Declaration}
    (h : ∀ d ∈ known, binds around d.qualifier = binds around' d.qualifier) (e : Element) :
    e.yielding known around = e.yielding known around' := by
  unfold Element.yielding repeats
  congr 1
  refine List.filter_congr fun d _ => ?_
  by_cases hd : d ∈ known
  · rw [h d hd]
  · simp [hd]

namespace Subtree

mutual

/-- A tree that is read with `known` declared around it: each element leaves out what it repeats. -/
def yielding (known around : List Declaration) : Subtree → Subtree
  | .mk payload children => .mk (payload.mapElement (Element.yielding known around))
      (yieldingAll known (payload.declarations ++ around) children)

def yieldingAll (known around : List Declaration) : List Subtree → List Subtree
  | [] => []
  | tree :: rest => tree.yielding known around :: yieldingAll known around rest

end

theorem yieldingAll_eq_map (known around : List Declaration) (trees : List Subtree) :
    yieldingAll known around trees = trees.map (yielding known around) := by
  induction trees with
  | nil => rfl
  | cons tree rest ih => rw [yieldingAll, ih, List.map_cons]

@[simp] theorem yielding_mk (known around : List Declaration) (payload : Payload)
    (children : List Subtree) : (Subtree.mk payload children).yielding known around =
      .mk (payload.mapElement (Element.yielding known around))
        (children.map (yielding known (payload.declarations ++ around))) := by
  rw [yielding, yieldingAll_eq_map]

mutual

theorem yielding_congr {known : List Declaration} : ∀ {around around' : List Declaration},
    (∀ d ∈ known, binds around d.qualifier = binds around' d.qualifier) → ∀ tree : Subtree,
    tree.yielding known around = tree.yielding known around'
  | around, around', h, .mk payload children => by
    have hbelow : ∀ d ∈ known, binds (payload.declarations ++ around) d.qualifier =
        binds (payload.declarations ++ around') d.qualifier := fun d hd => by
      rw [binds_append, binds_append, h d hd]
    rw [yielding, yielding, yieldingAll_congr hbelow children]
    congr 1
    cases payload with
    | element e => exact congrArg Payload.element (Element.yielding_congr h e)
    | _ => rfl

theorem yieldingAll_congr {known : List Declaration} : ∀ {around around' : List Declaration},
    (∀ d ∈ known, binds around d.qualifier = binds around' d.qualifier) → ∀ trees : List Subtree,
    yieldingAll known around trees = yieldingAll known around' trees
  | _, _, _, [] => rfl
  | around, around', h, tree :: rest => by
    rw [yieldingAll, yieldingAll, yielding_congr h tree, yieldingAll_congr h rest]

end

end Subtree

def OpenElement.declaring (name : String) (known : List Declaration) (below : List Subtree) :
    OpenElement where
  name := ⟨none, name⟩
  element := { name, declarations := known }
  scope := known
  below := below

/-- The elements that are open if the outermost one, which declared nothing, declares `known`. The
declarations `around` are those of the elements in it that are open. -/
inductive OpenYields (name : String) (known : List Declaration) :
    List Declaration → List OpenElement → List OpenElement → Prop
  | outermost (below : List Subtree) :
    OpenYields name known [] [.declaring name [] below]
      [.declaring name known (below.map (Subtree.yielding known []))]
  | inside {o : OpenElement} {around : List Declaration} {outer outer' : List OpenElement}
    (h : OpenYields name known around outer outer')
    (hb : ∀ qualifier, binds (o.element.declarations ++ around) qualifier =
      binds o.scope qualifier) :
    OpenYields name known (o.element.declarations ++ around) (o :: outer) ({ o with
      element := o.element.yielding known around
      scope := o.scope ++ unbound known o.scope
      below := o.below.map (Subtree.yielding known (o.element.declarations ++ around)) } :: outer')

namespace OpenYields

variable {name : String} {around : List Declaration} {opened opened' : List OpenElement}

theorem binds_eq (h : OpenYields name known around opened opened') (qualifier : Option String) :
    binds around qualifier = binds (scopeOf opened) qualifier := by
  cases h with
  | outermost below => rfl
  | inside _ hb => exact hb qualifier

theorem scope_eq (h : OpenYields name known around opened opened') :
    scopeOf opened' = scopeOf opened ++ unbound known (scopeOf opened) := by
  cases h with
  | outermost below => simp [scopeOf, OpenElement.declaring, unbound]
  | inside _ hb => rfl

end OpenYields

namespace Assembly

variable {a new : Assembly} {name : String} {around : List Declaration} {tree : Subtree}

def behind (a : Assembly) (tree : Subtree) : Assembly := { a with top := a.top ++ [tree] }

theorem put_behind (a : Assembly) (tree other : Subtree) :
    (a.behind tree).put other = (a.put other).behind tree := by
  unfold put behind
  cases a.opened <;> rfl

theorem endText_behind (a : Assembly) (tree : Subtree) :
    (a.behind tree).endText = a.endText.behind tree := by
  unfold endText
  split
  · rw [if_pos (by assumption)]
  · rw [if_neg (by assumption)]
    exact put_behind { a with pieces := [] } tree _

/-- What reads the same attributes and declarations in the same scope makes the same element. -/
theorem startTag?_of {tag : StartTag} {own : List Declaration}
    {written : List Written} (hne : tag.name.qualifier ≠ "xmlns")
    (hown : ownDeclarations? a.declarations tag.attributes = some own)
    (hwritten : written = a.attributes ++ tag.attributes.filter
      fun w => (declaredQualifier? w).isNone)
    (hnew : (tag.ending = .missing ∧ new = { a with declarations := own, attributes := written }) ∨
      ∃ element scope, resolvedElement? a.scope own tag.name written = some (element, scope) ∧
        ((tag.ending = .empty ∧ new = a.settled.put (.mk (.element element) [])) ∨
          (tag.ending = .content ∧ new = { a.settled with
            opened := { name := tag.name, element, scope } :: a.opened }))) :
    a.startTag? tag = some new := by
  rw [startTag?, if_neg (by simpa using hne), hown]
  rcases hnew with ⟨hending, rfl⟩ | ⟨element, scope, hread, ⟨hending, rfl⟩ | ⟨hending, rfl⟩⟩ <;>
    subst hwritten
  · simp [hending]
  · simp [hending, hread]
  · simp [hending, hread]

theorem startTag?_behind {tag : StartTag} (h : (a.behind tree).startTag? tag = some new) :
    ∃ rest : Assembly, rest.behind tree = new ∧
      ∀ other, (a.behind other).startTag? tag = some (rest.behind other) := by
  obtain ⟨hne, own, written, hown, hwritten, hnew⟩ := startTag?_eq_some h
  rcases hnew with ⟨hending, rfl⟩ | ⟨element, scope, hread, ⟨hending, rfl⟩ | ⟨hending, rfl⟩⟩
  · exact ⟨{ a with declarations := own, attributes := written }, rfl, fun other =>
      startTag?_of hne hown hwritten (.inl ⟨hending, rfl⟩)⟩
  · exact ⟨a.settled.put (.mk (.element element) []), (put_behind a.settled tree _).symm, fun other =>
      startTag?_of hne hown hwritten
        (.inr ⟨element, scope, hread, .inl ⟨hending, (put_behind a.settled other _).symm⟩⟩)⟩
  · exact ⟨{ a.settled with opened := { name := tag.name, element, scope } :: a.opened }, rfl,
      fun other => startTag?_of hne hown hwritten
        (.inr ⟨element, scope, hread, .inr ⟨hending, rfl⟩⟩)⟩

theorem endTag?_iff {name : QName} : a.endTag? name = some new ↔ ∃ attributes o outer,
    resolvedAttributes? (innerScope a.declarations a.scope) [] a.attributes = some attributes ∧
      a.opened = o :: outer ∧ name.agrees o.name = true ∧
      { a.settled with opened := outer }.put (.mk (.element o.element) o.below.reverse) = new := by
  simp only [endTag?, Option.bind_eq_bind, Option.bind_eq_some_iff, Option.pure_def]
  cases a.opened with
  | nil => simp
  | cons o outer => simp [and_assoc]

theorem endTag?_behind {name : QName} (h : (a.behind tree).endTag? name = some new) :
    ∃ rest : Assembly, rest.behind tree = new ∧
      ∀ other, (a.behind other).endTag? name = some (rest.behind other) := by
  obtain ⟨attributes, o, outer, hread, hopened, hagrees, rfl⟩ := endTag?_iff.mp h
  have hput := put_behind { a.settled with opened := outer }
  exact ⟨_, (hput tree _).symm, fun other =>
    endTag?_iff.mpr ⟨attributes, o, outer, hread, hopened, hagrees, hput other _⟩⟩

/-- No event looks at the finished trees. -/
theorem step?_behind {event : Event} (h : (a.behind tree).step? event = some new) :
    ∃ rest : Assembly, rest.behind tree = new ∧
      ∀ other, (a.behind other).step? event = some (rest.behind other) := by
  cases event with
  | startTag tag =>
    rw [step?, endText_behind] at h
    simpa only [step?, endText_behind] using startTag?_behind h
  | endTag name =>
    rw [step?, endText_behind] at h
    simpa only [step?, endText_behind] using endTag?_behind h
  | text content =>
    obtain rfl := Option.some.inj h
    exact ⟨{ a with pieces := content :: a.pieces }, rfl, fun _ => rfl⟩
  | comment content | instruction target data =>
    obtain rfl := Option.some.inj h
    simp only [step?, endText_behind, put_behind]
    exact ⟨_, rfl, fun _ => rfl⟩

structure YieldsInside (name : String) (known around : List Declaration) (a a' : Assembly) : Prop where
  top : a.top = []
  opened : ∃ opened', OpenYields name known around a.opened opened' ∧ { a with opened := opened' } = a'

namespace YieldsInside

variable {a' : Assembly}

theorem put (h : YieldsInside name known around a a') (tree : Subtree) :
    YieldsInside name known around (a.put tree) (a'.put (tree.yielding known around)) := by
  obtain ⟨htop, opened', h, rfl⟩ := h
  unfold Assembly.put
  generalize ho : a.opened = opened at h
  cases h with
  | outermost below => exact ⟨htop, _, .outermost (tree :: below), rfl⟩
  | @inside o around outer outer' h hb =>
    exact ⟨htop, _, .inside (o := { o with below := tree :: o.below }) h hb, rfl⟩

theorem endText (h : YieldsInside name known around a a') :
    YieldsInside name known around a.endText a'.endText := by
  obtain ⟨htop, opened', h, rfl⟩ := h
  unfold Assembly.endText
  split
  · exact ⟨htop, opened', h, rfl⟩
  · exact put (a := { a with pieces := [] }) ⟨htop, opened', h, rfl⟩ _

/-- A start tag makes the same element, in the scope that is wider by what is not bound. -/
theorem startTag {tag : StartTag} (hk : ArePrefixes known) (h : YieldsInside name known around a a')
    (ho : a.startTag? tag = some new) :
    ∃ new' around', a'.startTag? tag = some new' ∧ YieldsInside name known around' new new' := by
  obtain ⟨hne, own, written, hown, hwritten, hnew⟩ := startTag?_eq_some ho
  obtain ⟨htop, opened', h, rfl⟩ := h
  rcases hnew with ⟨hending, rfl⟩ | ⟨element, scope, hread, hnew⟩
  · exact ⟨_, around, startTag?_of hne hown hwritten (.inl ⟨hending, rfl⟩),
      ⟨htop, opened', h, rfl⟩⟩
  · have hwider := resolvedElement?_wider hk hread
    have hscope : a.scope ++ unbound known a.scope = scopeOf opened' := h.scope_eq.symm
    have helement : element.yielding known a.scope = element.yielding known around :=
      Element.yielding_congr (fun d _ => (h.binds_eq d.qualifier).symm) element
    rw [hscope, helement] at hwider
    rcases hnew with ⟨hending, rfl⟩ | ⟨hending, rfl⟩
    · exact ⟨_, around, startTag?_of hne hown hwritten (.inr ⟨_, _, hwider, .inl ⟨hending, rfl⟩⟩),
        put (a := a.settled) ⟨htop, opened', h, rfl⟩ _⟩
    · obtain ⟨rfl, hstored, -⟩ := resolvedElement?_eq_some hread
      refine ⟨_, element.declarations ++ around, startTag?_of hne hown hwritten
        (.inr ⟨_, _, hwider, .inr ⟨hending, rfl⟩⟩), ?_⟩
      refine ⟨htop, _,
        .inside (o := { name := tag.name, element, scope := innerScope own a.scope }) h fun q => ?_, rfl⟩
      rw [binds_append, hstored, h.binds_eq]
      exact binds_stored own a.scope q

/-- An end tag closes an element of both, or the outermost one. -/
theorem endTag {closed : QName} (hk : ArePrefixes known) (h : YieldsInside name known around a a')
    (ho : a.endTag? closed = some new) : ∃ new', a'.endTag? closed = some new' ∧
      ((∃ around', YieldsInside name known around' new new') ∨
        ∃ c children, new = behind c (.mk (.element { name }) children) ∧
          new' = behind c (.mk (.element { name, declarations := known })
            (children.map (Subtree.yielding known [])))) := by
  obtain ⟨attributes, o, outer, hread, hopened, hagrees, rfl⟩ := endTag?_iff.mp ho
  obtain ⟨htop, opened', h, rfl⟩ := h
  have hmore : ∀ d ∈ unbound known (innerScope a.declarations a.scope), d.qualifier.isSome :=
    fun d hd => hk.qualifier d (mem_unbound.mp hd).1
  have hscope : a.scope ++ unbound known a.scope = scopeOf opened' := h.scope_eq.symm
  have hwider := resolvedAttributes?_wider hmore hread
  rw [← innerScope_wider hk.distinct, hscope] at hwider
  rw [hopened] at h
  cases h with
  | outermost below =>
    refine ⟨_, endTag?_iff.mpr ⟨attributes, _, _, hwider, rfl, hagrees, rfl⟩, .inr
      ⟨{ a.settled with opened := [] }, below.reverse, ?_, ?_⟩⟩
    · simp [Assembly.put, behind, settled, htop, OpenElement.declaring]
    · simp [Assembly.put, behind, settled, htop, OpenElement.declaring]
  | @inside o around outer outer' h hb =>
    refine ⟨_, endTag?_iff.mpr ⟨attributes, _, _, hwider, rfl, hagrees, rfl⟩, .inl ⟨around, ?_⟩⟩
    have hput := put (a := { a.settled with opened := outer }) ⟨htop, outer', h, rfl⟩
      (.mk (.element o.element) o.below.reverse)
    rwa [Subtree.yielding_mk, List.map_reverse] at hput

end YieldsInside

/-- The same trees under construction in a first element that declares nothing and in one that
declares `known`. Once that element is closed, only its tree is another one. -/
inductive Yields (name : String) (known : List Declaration) : Assembly → Assembly → Prop
  | inside {a a' : Assembly} {around : List Declaration}
    (h : YieldsInside name known around a a') : Yields name known a a'
  | outside (c : Assembly) (children : List Subtree) :
    Yields name known (c.behind (.mk (.element { name }) children))
      (c.behind (.mk (.element { name, declarations := known })
        (children.map (Subtree.yielding known []))))

namespace Yields

variable {a' : Assembly}

theorem step {event : Event} (hk : ArePrefixes known) (h : Yields name known a a')
    (ho : a.step? event = some new) :
    ∃ new', a'.step? event = some new' ∧ Yields name known new new' := by
  cases h with
  | @inside _ _ around h =>
    cases event with
    | startTag tag =>
      obtain ⟨new', _, hnew, hyields⟩ := h.endText.startTag hk ho
      exact ⟨new', hnew, .inside hyields⟩
    | endTag closed =>
      obtain ⟨new', hnew, ⟨_, hyields⟩ | ⟨c, children, rfl, rfl⟩⟩ := h.endText.endTag hk ho
      · exact ⟨new', hnew, .inside hyields⟩
      · exact ⟨_, hnew, .outside c children⟩
    | text content =>
      obtain rfl := Option.some.inj ho
      obtain ⟨htop, opened', h, rfl⟩ := h
      exact ⟨_, rfl, .inside ⟨htop, opened', h, rfl⟩⟩
    | comment content | instruction target data =>
      obtain rfl := Option.some.inj ho
      exact ⟨_, rfl, .inside (h.endText.put _)⟩
  | outside c children =>
    obtain ⟨rest, rfl, hstep⟩ := step?_behind ho
    exact ⟨_, hstep _, .outside rest children⟩

theorem run {events : List Event} (hk : ArePrefixes known) (h : Yields name known a a')
    (ho : events.foldlM step? a = some new) :
    ∃ new', events.foldlM step? a' = some new' ∧ Yields name known new new' := by
  induction events generalizing a a' with
  | nil =>
    obtain rfl := Option.some.inj ho
    exact ⟨a', rfl, h⟩
  | cons event events ih =>
    simp only [List.foldlM_cons, Option.bind_eq_bind, Option.bind_eq_some_iff] at ho ⊢
    obtain ⟨next, hstep, ho⟩ := ho
    obtain ⟨next', hstep', hnext⟩ := h.step hk hstep
    obtain ⟨new', hrun, hnew⟩ := ih hnext ho
    exact ⟨new', ⟨next', hstep', hrun⟩, hnew⟩

/-- In the end the first element is closed. -/
theorem finish {trees : List Subtree} (h : Yields name known a a')
    (ho : a.finish? = some trees) : ∃ children rest,
      trees = .mk (.element { name }) children :: rest ∧
        a'.finish? = some (.mk (.element { name, declarations := known })
          (children.map (Subtree.yielding known [])) :: rest) := by
  obtain ⟨⟨hclosed, -⟩, rfl⟩ := finish?_eq_some.mp ho
  cases h with
  | inside h =>
    obtain ⟨-, opened', h, -⟩ := h
    rw [hclosed] at h
    cases h
  | outside c children =>
    have htrees : ∀ tree, (c.behind tree).top.reverse ++ (c.behind tree).lastText =
        tree :: (c.top.reverse ++ c.lastText) := fun tree => by simp [behind, lastText]
    refine ⟨children, _, htrees _, finish?_eq_some.mpr ⟨⟨hclosed, ?_⟩, htrees _⟩⟩
    simp [Subtree.payload, Payload.isElement, Payload.element?]

end Yields

end Assembly

def declaringTag (name : String) (known : List Declaration) : StartTag where
  name := ⟨none, name⟩
  attributes := known.map Declaration.written
  ending := .content

/-- Such an element is in no namespace, and what it declares is in force in it. -/
theorem startTag?_declaring (name : String) (hk : ArePrefixes known) :
    Assembly.startTag? {} (declaringTag name known) =
      some { opened := [.declaring name known []] } := by
  have hown : ownDeclarations? [] (known.map Declaration.written) = some known := by
    have hread := ownDeclarations?_written hk.legible
      (show DeclaredOnce ([] ++ known) from hk.once) (List.forall_mem_nil _)
    simpa using hread
  have hothers : (known.map Declaration.written).filter (fun w => (declaredQualifier? w).isNone) =
      [] :=
    List.filter_eq_nil_iff.mpr fun w hw => by
      obtain ⟨d, -, rfl⟩ := List.mem_map.mp hw
      simp [declaredQualifier?_declaration]
  have hscope : innerScope known [] = known := by
    unfold innerScope
    split
    · simp_all
    · rfl
  have hdefault : known.find? (fun d => d.qualifier.isNone) = none :=
    List.find?_eq_none.mpr fun d hd => by simp [Option.isSome_iff_ne_none.mp (hk.qualifier d hd)]
  have hread : resolvedElement? [] known ⟨none, name⟩ [] =
      some ({ name, declarations := known }, known) := by
    simp [resolvedElement?, hscope, resolvedAttributes?, lookup?, QName.qualifier, hdefault]
  exact Assembly.startTag?_of (by simp [declaringTag, QName.qualifier]) hown
    (by simp [declaringTag, hothers]) (.inr ⟨_, _, hread, .inr ⟨rfl, rfl⟩⟩)

/-- What is read from markup in a first element that declares nothing is read alike in one that
declares `known`. -/
theorem assembled?_wider {name : String} {events : List Event} {trees : List Subtree}
    (hk : ArePrefixes known)
    (h : assembled? (.startTag (declaringTag name []) :: events) = some trees) :
    ∃ children rest, trees = .mk (.element { name }) children :: rest ∧
      assembled? (.startTag (declaringTag name known) :: events) =
        some (.mk (.element { name, declarations := known })
          (children.map (Subtree.yielding known [])) :: rest) := by
  have hnone : ArePrefixes [] := ⟨.nil, by simp⟩
  have hstep : ∀ {ds : List Declaration}, ArePrefixes ds →
      assembled? (.startTag (declaringTag name ds) :: events) = (events.foldlM Assembly.step?
        { opened := [.declaring name ds []] }).bind Assembly.finish? := by
    intro ds hds
    have hstart : Assembly.step? {} (.startTag (declaringTag name ds)) =
        some { opened := [.declaring name ds []] } := startTag?_declaring name hds
    simp only [assembled?, List.foldlM_cons, hstart, Option.bind_eq_bind, Option.bind_some]
  rw [hstep hnone] at h
  obtain ⟨a, hrun, hfinish⟩ := Option.bind_eq_some_iff.mp h
  have hyields : Assembly.Yields name known { opened := [.declaring name [] []] }
      { opened := [.declaring name known []] } := .inside ⟨rfl, _, .outermost [], rfl⟩
  obtain ⟨a', hrun', hend⟩ := hyields.run hk hrun
  obtain ⟨children, rest, rfl, htrees⟩ := hend.finish hfinish
  exact ⟨children, rest, rfl, by rw [hstep hk, hrun', Option.bind_some, htrees]⟩

end MarkupQuery.Tree
