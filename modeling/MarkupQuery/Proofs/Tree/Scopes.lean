import MarkupQuery.Proofs.Xml.Legible
import MarkupQuery.Tree.Resolution
import Mathlib.Tactic.SplitIfs

namespace MarkupQuery.Tree

open MarkupQuery.Xml

/-- No prefix is declared twice. The default namespace may be. -/
def DeclaredOnce (ds : List Declaration) : Prop :=
  ds.Pairwise fun a b => a.qualifier.isSome → a.qualifier ≠ b.qualifier

structure Element.Qualified (e : Element) : Prop where
  element : e.qualifier.isSome → e.namespaceUri.isSome
  attributes : ∀ a ∈ e.attributes, a.qualifier.isSome → a.namespaceUri.isSome

/-- Of attributes the converse holds too: what is in a namespace is written with a prefix. -/
structure Element.Paired (e : Element) : Prop extends e.Qualified where
  prefixed : ∀ a ∈ e.attributes, a.namespaceUri.isSome → a.qualifier.isSome

structure Element.Resolved (e : Element) : Prop where
  qualified : e.Qualified
  declarations : DeclaredOnce e.declarations

/-- A scope is extended by declarations of further prefixes only. What such a declaration keeps, the
extension keeps. -/
theorem Document.extendScope_keeps {P : List Declaration → Prop}
    (hstep : ∀ ds d, P ds → (∀ known ∈ ds, known.qualifier ≠ d.qualifier) → P (ds ++ [d]))
    {ds : List Declaration} (h : P ds) (more : List Declaration) :
    P (Document.extendScope ds more) := by
  induction more generalizing ds with
  | nil => exact h
  | cons d more ih =>
    unfold Document.extendScope
    split
    · exact ih h
    · rename_i hnew
      simp only [List.any_eq_true, beq_iff_eq, not_exists, not_and] at hnew
      exact ih (hstep ds d h hnew)

namespace DeclaredOnce

variable {ds more own outer : List Declaration}

theorem nil : DeclaredOnce [] := List.Pairwise.nil

theorem filter (h : DeclaredOnce ds) (p : Declaration → Bool) : DeclaredOnce (ds.filter p) :=
  List.Pairwise.filter p h

theorem concat (h : DeclaredOnce ds) {d : Declaration}
    (hd : d.qualifier.isSome → ∀ known ∈ ds, known.qualifier ≠ d.qualifier) :
    DeclaredOnce (ds ++ [d]) := by
  refine List.pairwise_append.mpr ⟨h, List.pairwise_singleton _ _, fun known hk last hl hs => ?_⟩
  obtain rfl := List.mem_singleton.mp hl
  intro he
  exact hd (he ▸ hs) known hk he

theorem extendScope (h : DeclaredOnce ds) : DeclaredOnce (Document.extendScope ds more) :=
  Document.extendScope_keeps (fun _ _ h hnew => h.concat fun _ => hnew) h more

theorem innerScope (hown : DeclaredOnce own) (houter : DeclaredOnce outer) :
    DeclaredOnce (innerScope own outer) := by
  unfold MarkupQuery.Tree.innerScope
  split
  · exact houter
  · exact hown.extendScope

theorem ownDeclarations {attributes : List Written} (h : DeclaredOnce own)
    (ho : ownDeclarations? own attributes = some ds) : DeclaredOnce ds := by
  induction attributes generalizing own with
  | nil =>
    rw [ownDeclarations?, Option.some.injEq] at ho
    exact ho ▸ h
  | cons a rest ih =>
    unfold ownDeclarations? at ho
    split at ho
    · exact ih h ho
    · rename_i qualifier _
      split_ifs at ho with hmay htwice hxml
      · exact ih h ho
      · refine ih (h.concat fun hs known hk he => htwice ?_) ho
        simp only [Bool.and_eq_true, List.any_eq_true, beq_iff_eq]
        exact ⟨hs, known, hk, he⟩

end DeclaredOnce

structure Declaration.Legible (d : Declaration) : Prop where
  allowed : mayDeclare d.qualifier d.uri = true
  qualifier : ∀ q, d.qualifier = some q → IsName q ∧ q ≠ "xml"

structure IsScope (scope : List Declaration) : Prop where
  once : DeclaredOnce scope
  legible : ∀ d ∈ scope, d.Legible

structure Attribute.ScopedIn (scope : List Declaration) (a : Attribute) : Prop where
  name : IsName a.name
  name_ne : a.name ≠ "xmlns"
  bound : (a.qualifier = none ∧ a.namespaceUri = none) ∨
    (a.qualifier = some "xml" ∧ a.namespaceUri = some xmlNamespace) ∨
    ∃ q u, a.qualifier = some q ∧ a.namespaceUri = some u ∧ ⟨some q, u⟩ ∈ scope

def DistinctNames (attributes : List Attribute) : Prop :=
  attributes.Pairwise fun a b => ¬ (a.namespaceUri = b.namespaceUri ∧ a.name = b.name)

/-- An element that was read in the scope `outer` and whose content is read in `inner`. Its prefix
may be empty, and then its namespace is the default one. -/
structure Element.ScopedIn (outer inner : List Declaration) (e : Element) : Prop where
  scope : IsScope inner
  declarations : e.declarations = inner.filter fun d => !outer.contains d
  name : IsName e.name
  qualifier_ne : e.qualifier ≠ some "xmlns"
  qualifier : ∀ q, e.qualifier = some q →
    ∃ u, e.namespaceUri = some u ∧ (q = "" ∨ IsName q ∧ ⟨some q, u⟩ ∈ inner)
  namespaceUri : ∀ u, e.namespaceUri = some u → u ≠ "" ∧ ∃ d ∈ inner, d.uri = u
  attributes : ∀ a ∈ e.attributes, a.ScopedIn inner
  distinct : DistinctNames e.attributes

def Payload.Legible : Payload → Prop
  | .text content => ∀ c ∈ content.toList, isChar c = true
  | .comment content => IsComment content
  | .instruction target data => IsInstruction target data
  | _ => False

inductive Subtree.ScopedIn : List Declaration → Subtree → Prop
  | element {outer inner : List Declaration} {e : Element} {children : List Subtree}
      (he : e.ScopedIn outer inner) (ht : ∀ tree ∈ children, tree.ScopedIn inner) :
      ScopedIn outer (.mk (.element e) children)
  | leaf {outer : List Declaration} {payload : Payload} (hp : payload.Legible) :
      ScopedIn outer (.mk payload [])

variable {own outer inner scope ds : List Declaration} {d : Declaration} {q u v : String}
  {e : Element} {name : QName} {written : List Written}

theorem DeclaredOnce.uri_eq (h : DeclaredOnce ds) (hu : ⟨some q, u⟩ ∈ ds) (hv : ⟨some q, v⟩ ∈ ds) :
    u = v := by
  induction ds with
  | nil => cases hu
  | cons d ds ih =>
    obtain ⟨hd, hds⟩ := List.pairwise_cons.mp h
    rcases List.mem_cons.mp hu with hu | hu <;> rcases List.mem_cons.mp hv with hv | hv
    · exact (Declaration.mk.inj (hu.trans hv.symm)).2
    · exact (hd _ hv (by simp [← hu]) (by simp [← hu])).elim
    · exact (hd _ hu (by simp [← hv]) (by simp [← hv])).elim
    · exact ih hds hu hv

/-- A prefix is looked up in the one declaration of it. -/
theorem DeclaredOnce.find_eq (h : DeclaredOnce ds) (hu : ⟨some q, u⟩ ∈ ds) :
    ds.find? (fun d => d.qualifier == some q) = some ⟨some q, u⟩ := by
  cases hf : ds.find? fun d => d.qualifier == some q with
  | none => exact absurd (List.find?_eq_none.mp hf _ hu) (by simp)
  | some d =>
    obtain ⟨qualifier, v⟩ := d
    obtain rfl : qualifier = some q := by simpa using List.find?_some hf
    rw [h.uri_eq hu (List.mem_of_find?_eq_some hf)]

theorem mem_of_find {qualifier : Option String}
    (h : ds.find? (fun d => d.qualifier == qualifier) = some d) : ⟨qualifier, d.uri⟩ ∈ ds := by
  obtain rfl : d.qualifier = qualifier := by simpa using List.find?_some h
  exact List.mem_of_find?_eq_some h

theorem Declaration.Legible.uri_ne (h : d.Legible) :
    d.uri ≠ xmlnsNamespace ∧ d.uri ≠ xmlNamespace := by
  have hallowed := h.allowed
  have hxml : (d.qualifier == some "xml") = false := by
    cases hq : d.qualifier with
    | none => rfl
    | some q => simpa using (h.qualifier q hq).2
  rw [mayDeclare, hxml] at hallowed
  simp only [Bool.and_eq_true, bne_iff_ne, beq_iff_eq] at hallowed
  exact ⟨hallowed.1, beq_eq_false_iff_ne.mp hallowed.2.symm⟩

namespace IsScope

theorem nil : IsScope [] := ⟨.nil, by simp⟩

theorem mem_extendScope {more : List Declaration}
    (h : d ∈ Document.extendScope own more) : d ∈ own ∨ d ∈ more := by
  induction more generalizing own with
  | nil => exact .inl h
  | cons x more ih =>
    unfold Document.extendScope at h
    split at h
    · exact (ih h).imp_right (List.mem_cons_of_mem x)
    · rcases ih h with h | h
      · rcases List.mem_append.mp h with h | h
        · exact .inl h
        · exact .inr (by simp_all)
      · exact .inr (List.mem_cons_of_mem x h)

theorem innerScope (hown : IsScope own) (houter : IsScope outer) :
    IsScope (innerScope own outer) where
  once := hown.once.innerScope houter.once
  legible d hd := by
    unfold MarkupQuery.Tree.innerScope at hd
    split at hd
    · exact houter.legible d hd
    · exact (mem_extendScope hd).elim (hown.legible d) (houter.legible d)

theorem ownDeclarations (h : IsScope own) (hw : ∀ a ∈ written, a.name.Legible)
    (ho : ownDeclarations? own written = some ds) : IsScope ds := by
  refine ⟨h.once.ownDeclarations ho, ?_⟩
  have hown := h.legible
  clear h
  induction written generalizing own with
  | nil =>
    rw [ownDeclarations?, Option.some.injEq] at ho
    exact ho ▸ hown
  | cons a rest ih =>
    obtain ⟨ha, hrest⟩ := List.forall_mem_cons.mp hw
    unfold ownDeclarations? at ho
    split at ho
    · exact ih hrest ho hown
    · rename_i qualifier hq
      split_ifs at ho with hmay htwice hxml
      · exact ih hrest ho hown
      · refine ih hrest ho (List.forall_mem_append.mpr ⟨hown, List.forall_mem_singleton.mpr ?_⟩)
        refine ⟨by simpa using hmay, fun q he => ?_⟩
        subst he
        refine ⟨?_, by simpa using hxml⟩
        -- the prefix is the local name of the attribute that declares it
        unfold declaredQualifier? at hq
        split_ifs at hq
        · obtain rfl := Option.some.inj (Option.some.inj hq)
          exact ha.localName
        · cases hq

end IsScope

theorem attributeQualifier_eq (hs : IsScope scope) (hu : ⟨some q, u⟩ ∈ scope) :
    ∃ q', attributeQualifier scope u = some q' ∧ ⟨some q', u⟩ ∈ scope := by
  have hne : (u == xmlNamespace) = false := by simpa using (hs.legible _ hu).uri_ne.2
  rw [attributeQualifier, hne]
  cases hf : scope.find? fun d => d.uri == u && d.qualifier.isSome with
  | none => exact absurd (List.find?_eq_none.mp hf _ hu) (by simp)
  | some d =>
    obtain ⟨qualifier, v⟩ := d
    have hd := List.find?_some hf
    simp only [Bool.and_eq_true, beq_iff_eq, Option.isSome_iff_exists] at hd
    obtain ⟨rfl, q', rfl⟩ := hd
    exact ⟨q', rfl, List.mem_of_find?_eq_some hf⟩

/-- An attribute keeps its meaning when it gets the prefix that is found for its namespace. -/
theorem bound_of_attributeNamespace? (hs : IsScope scope) {uri : Option String}
    (h : attributeNamespace? scope q = some uri) {a : Attribute} (ha : a.namespaceUri = uri)
    (hq : a.qualifier = uri.bind (attributeQualifier scope)) :
    (a.qualifier = none ∧ a.namespaceUri = none) ∨
      (a.qualifier = some "xml" ∧ a.namespaceUri = some xmlNamespace) ∨
      ∃ q u, a.qualifier = some q ∧ a.namespaceUri = some u ∧ ⟨some q, u⟩ ∈ scope := by
  unfold attributeNamespace? at h
  split_ifs at h with hxml hempty
  · obtain rfl := Option.some.inj h
    exact .inr (.inl ⟨hq, ha⟩)
  · obtain rfl := Option.some.inj h
    exact .inl ⟨hq, ha⟩
  · rw [lookup?, if_neg hempty] at h
    obtain ⟨d, hd, rfl⟩ := Option.map_eq_some_iff.mp h
    obtain ⟨q', hq', hmem⟩ := attributeQualifier_eq hs (mem_of_find hd)
    exact .inr (.inr ⟨q', d.uri, hq.trans hq', ha, hmem⟩)

theorem scoped_of_resolvedAttributes? (hs : IsScope scope) {done attributes : List Attribute}
    (hw : ∀ a ∈ written, a.name.Legible ∧ declaredQualifier? a = none)
    (hd : ∀ a ∈ done, a.ScopedIn scope) (hd' : DistinctNames done)
    (ho : resolvedAttributes? scope done written = some attributes) :
    (∀ a ∈ attributes, a.ScopedIn scope) ∧ DistinctNames attributes := by
  induction written generalizing done with
  | nil =>
    rw [resolvedAttributes?, Option.some.injEq] at ho
    exact ho ▸ ⟨hd, hd'⟩
  | cons w rest ih =>
    obtain ⟨⟨hname, hplain⟩, hrest⟩ := List.forall_mem_cons.mp hw
    unfold resolvedAttributes? at ho
    split at ho
    · cases ho
    · rename_i uri huri
      dsimp only at ho
      split_ifs at ho with hany
      refine ih hrest ?_ ?_ ho
      · refine List.forall_mem_append.mpr ⟨hd, List.forall_mem_singleton.mpr ?_⟩
        refine ⟨hname.localName, fun hxmlns => ?_, bound_of_attributeNamespace? hs huri rfl rfl⟩
        unfold declaredQualifier? at hplain
        split_ifs at hplain with hfirst hsecond
        exact hsecond (by simpa using hxmlns)
      · refine List.pairwise_append.mpr ⟨hd', List.pairwise_singleton _ _, fun a ha b hb hsame => ?_⟩
        obtain rfl := List.mem_singleton.mp hb
        refine hany (List.any_eq_true.mpr ⟨a, ha, ?_⟩)
        simpa using hsame

theorem scoped_of_resolvedElement? (hown : IsScope own) (houter : IsScope outer)
    (hname : name.Legible) (hne : name.qualifier ≠ "xmlns")
    (hw : ∀ a ∈ written, a.name.Legible ∧ declaredQualifier? a = none)
    (ho : resolvedElement? outer own name written = some (e, inner)) : e.ScopedIn outer inner := by
  simp only [resolvedElement?, Option.bind_eq_bind, Option.bind_eq_some_iff, Option.pure_def,
    Option.some.injEq, Prod.mk.injEq] at ho
  obtain ⟨attributes, ha, found, hfound, rfl, rfl⟩ := ho
  have hscope := hown.innerScope houter
  obtain ⟨hattributes, hdistinct⟩ := scoped_of_resolvedAttributes? hscope hw (by simp) .nil ha
  -- an empty default namespace is none
  have hfilter : ∀ u, (found.filter fun uri => !uri.isEmpty) = some u → found = some u ∧ u ≠ "" := by
    intro u hu
    simpa [Option.filter_eq_some_iff] using hu
  have hkept : ∀ q, keptQualifier name = some q → name.written = some q := fun q hq =>
    (Option.filter_eq_some_iff.mp hq).1
  refine ⟨hscope, rfl, hname.localName, ?_, ?_, ?_, hattributes, hdistinct⟩
  · intro hq
    obtain ⟨_, -, hq⟩ := Option.bind_eq_some_iff.mp hq
    rw [QName.qualifier, hkept _ hq] at hne
    exact hne rfl
  · intro q hq
    obtain ⟨u, hu, hq⟩ := Option.bind_eq_some_iff.mp hq
    have hwritten := hkept q hq
    refine ⟨u, hu, ?_⟩
    obtain ⟨rfl, -⟩ := hfilter u hu
    rcases hname.qualifier q hwritten with rfl | hq
    · exact .inl rfl
    · refine .inr ⟨hq, ?_⟩
      rw [QName.qualifier, hwritten, Option.getD_some, lookup?, if_neg (by simpa using hq.ne_empty)]
        at hfound
      obtain ⟨d, hd, he⟩ := Option.map_eq_some_iff.mp hfound
      exact Option.some.inj he ▸ mem_of_find hd
  · intro u hu
    obtain ⟨rfl, hne⟩ := hfilter u hu
    refine ⟨hne, ?_⟩
    unfold lookup? at hfound
    split_ifs at hfound
    · obtain ⟨d, hd, rfl⟩ := Option.map_eq_some_iff.mp (Option.some.inj hfound)
      exact ⟨d, List.mem_of_find?_eq_some hd, rfl⟩
    · obtain ⟨d, hd, he⟩ := Option.map_eq_some_iff.mp hfound
      exact ⟨d, List.mem_of_find?_eq_some hd, Option.some.inj he⟩

theorem Element.ScopedIn.resolved (h : e.ScopedIn outer inner) : e.Resolved where
  qualified := {
    element := fun hq => by
      obtain ⟨q, hq⟩ := Option.isSome_iff_exists.mp hq
      obtain ⟨u, hu, -⟩ := h.qualifier q hq
      simp [hu]
    attributes := fun a ha hq => by
      rcases (h.attributes a ha).bound with ⟨hnone, -⟩ | ⟨-, hu⟩ | ⟨_, _, -, hu, -⟩
      · simp [hnone] at hq
      · simp [hu]
      · simp [hu] }
  declarations := h.declarations ▸ h.scope.once.filter _

theorem Element.ScopedIn.paired (h : e.ScopedIn outer inner) : e.Paired where
  toQualified := h.resolved.qualified
  prefixed a ha hu := by
    rcases (h.attributes a ha).bound with ⟨-, hnone⟩ | ⟨hq, -⟩ | ⟨_, _, hq, -, -⟩
    · simp [hnone] at hu
    · simp [hq]
    · simp [hq]

end MarkupQuery.Tree
