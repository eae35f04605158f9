import MarkupQuery.Proofs.Query.Correspondence.Sites
import MarkupQuery.Query.CoreFunction
import MarkupQuery.Query.Operator

namespace MarkupQuery.Query

open MarkupQuery.Tree MarkupQuery.Text

def Value.map (φ : NodeId → NodeId) : Value → Value
  | nodes sites => nodes (sites.map (Site.map φ))
  | scalar value => scalar value

def Value.Attached (doc : Document) : Value → Prop
  | nodes sites => ∀ site ∈ sites, doc.Within site.id Document.root
  | scalar _ => True

def Focus.map (φ : NodeId → NodeId) (focus : Focus) : Focus :=
  { focus with site := focus.site.map φ }

variable {s t : Ranked} {φ : NodeId → NodeId} {value left right : Value} {focus : Focus}

@[simp] theorem Value.map_nodes (φ : NodeId → NodeId) (sites : List Site) :
    (Value.nodes sites).map φ = .nodes (sites.map (Site.map φ)) := rfl

@[simp] theorem Value.map_scalar (φ : NodeId → NodeId) (value : Scalar) :
    (Value.scalar value).map φ = .scalar value := rfl

@[simp] theorem Value.toBool_map (φ : NodeId → NodeId) (value : Value) :
    (value.map φ).toBool = value.toBool := by
  cases value <;> simp [Value.toBool]

theorem requireNodes_map (φ : NodeId → NodeId) (function : String) (value : Value) :
    requireNodes function (value.map φ) =
      (requireNodes function value).map (List.map (Site.map φ)) := by
  cases value <;> rfl

variable (h : s.document.Corresponds t.document φ) (hs : Forest s.document s.document.children)
  (ht : Forest t.document t.document.children)

include h hs

theorem hasId_map {site : Site} (hsite : s.document.Within site.id Document.root)
    (wanted : List (List Char)) :
    hasId t.document wanted (site.map φ) = hasId s.document wanted site := by
  simp only [hasId, Site.map, h.attributes_eq hs hsite]

include ht

namespace Value

theorem toText_map (hv : value.Attached s.document) :
    (value.map φ).toText t.document = value.toText s.document := by
  cases value with
  | scalar value => rfl
  | nodes sites =>
    cases sites with
    | nil => rfl
    | cons site sites => exact Site.value_map h hs ht (hv site (List.mem_cons_self ..))

theorem toNumber_map (hv : value.Attached s.document) :
    (value.map φ).toNumber t.document = value.toNumber s.document := by
  cases value with
  | scalar value => rfl
  | nodes sites =>
    simp only [Value.map, toNumber, List.head?_map]
    cases hhead : sites.head? with
    | none => simp only [Option.map_none]
    | some site =>
      simp only [Option.map_some, Site.value_map h hs ht (hv site (List.mem_of_head? hhead))]

theorem comparands_map (hl : left.Attached s.document) :
    (left.map φ).comparands t.document (right.map φ) = left.comparands s.document right := by
  cases left with
  | scalar value => rfl
  | nodes sites =>
    have hvalues : ∀ {α : Type} (f : String → α),
        ((sites.map (Site.map φ)).map fun site => f (site.value t.document)) =
          sites.map fun site => f (site.value s.document) := by
      intro α f
      rw [List.map_map]
      exact List.map_congr_left fun site hsite => congrArg f (Site.value_map h hs ht (hl site hsite))
    rcases right with others | value
    · exact hvalues Scalar.text
    · cases value with
      | boolean value => simp [Value.map, comparands]
      | number value => exact hvalues fun text => Scalar.number (Number.ofText text.toList)
      | text value => exact hvalues Scalar.text

theorem compare_map (op : BinaryOp) (hl : left.Attached s.document) (hr : right.Attached s.document) :
    Value.compare t.document op (left.map φ) (right.map φ) =
      Value.compare s.document op left right := by
  simp only [Value.compare, comparands_map h hs ht hl, comparands_map h hs ht hr]

end Value

theorem merge_map (hl : left.Attached s.document) (hr : right.Attached s.document) :
    merge t (left.map φ) (right.map φ) = (merge s left right).map (Value.map φ) := by
  cases left with
  | scalar value => cases right <;> rfl
  | nodes lefts =>
    cases right with
    | scalar value => rfl
    | nodes rights =>
      have hboth : ∀ site ∈ lefts ++ rights, s.document.Within site.id Document.root :=
        List.forall_mem_append.mpr ⟨hl, hr⟩
      simp only [Value.map, merge, ← List.map_append, Ranked.ordered_map h hs ht hboth, Except.map]

/-- An operator takes corresponding operands to corresponding results. -/
theorem BinaryOp.apply_map (op : BinaryOp) (hl : left.Attached s.document)
    (hr : right.Attached s.document) :
    op.apply t (left.map φ) (right.map φ) = (op.apply s left right).map (Value.map φ) := by
  have hnumber := Value.toNumber_map h hs ht hl
  have hnumber' := Value.toNumber_map h hs ht hr
  cases op with
  | union => exact merge_map h hs ht hl hr
  | or | and => simp [BinaryOp.apply, Value.boolean, Except.map]
  | plus | minus | times | divide | modulo =>
    simp [BinaryOp.apply, Value.number, Except.map, hnumber, hnumber']
  | equals | notEquals | less | lessOrEqual | greater | greaterOrEqual =>
    simp [BinaryOp.apply, Value.boolean, Except.map, Value.compare_map h hs ht _ hl hr]

theorem nodeArgument_map {arguments : List Value}
    (ha : ∀ value ∈ arguments, value.Attached s.document) (function : String) :
    nodeArgument t (focus.map φ) function (arguments.map (Value.map φ)) =
      (nodeArgument s focus function arguments).map (Option.map (Site.map φ)) := by
  cases arguments with
  | nil => rfl
  | cons value rest =>
    have hv := ha value (List.mem_cons_self ..)
    cases value with
    | scalar value => rfl
    | nodes sites => exact congrArg Except.ok (Ranked.first?_map h hs ht hv)

theorem textArgument_map (hfocus : s.document.Within focus.site.id Document.root)
    {arguments : List Value} (ha : ∀ value ∈ arguments, value.Attached s.document) :
    textArgument t.document (focus.map φ) (arguments.map (Value.map φ)) =
      textArgument s.document focus arguments := by
  cases arguments with
  | nil => exact Site.value_map h hs ht hfocus
  | cons value rest => exact Value.toText_map h hs ht (ha value (List.mem_cons_self ..))

/-- The elements that ids ask for correspond, as all below the document node do. -/
theorem elementsById_map (hv : value.Attached s.document) :
    elementsById t .document (value.map φ) =
      (elementsById s .document value).map (Site.map φ) := by
  have hbelow : Site.document.descendants t.document =
      (Site.document.descendants s.document).map (Site.map φ) := by
    conv_lhs => rw [← Site.map_document h]
    exact @Site.descendants_map _ _ _ .document h hs ht .refl
  have hwithin : ∀ site ∈ Site.document.descendants s.document,
      s.document.Within site.id Document.root := by
    intro site hsite
    have hall : site ∈ Site.all s.document :=
      (@Site.descendants_sublist _ _ .document _ hs .refl).subset hsite
    exact ((Site.mem_all hs).mp hall).1
  have hwords : ∀ sites : List Site, Value.Attached s.document (.nodes sites) →
      ((sites.map (Site.map φ)).flatMap fun site => words (site.value t.document).toList) =
        sites.flatMap fun site => words (site.value s.document).toList := by
    intro sites hsites
    rw [List.flatMap_map]
    refine List.flatMap_congr fun site hsite => ?_
    rw [Site.value_map h hs ht (hsites site hsite)]
  have hfound : ∀ wanted : List (List Char),
      t.ordered ((Site.document.descendants t.document).filter (hasId t.document wanted)) =
        (s.ordered ((Site.document.descendants s.document).filter
          (hasId s.document wanted))).map (Site.map φ) := by
    intro wanted
    have hfilter : ((Site.document.descendants s.document).map (Site.map φ)).filter
        (hasId t.document wanted) = ((Site.document.descendants s.document).filter
          (hasId s.document wanted)).map (Site.map φ) := by
      rw [List.filter_map]
      refine congrArg (List.map (Site.map φ)) (List.filter_congr fun site hsite => ?_)
      exact hasId_map h hs (hwithin site hsite) wanted
    rw [hbelow, hfilter]
    exact Ranked.ordered_map h hs ht fun site hsite => hwithin site (List.mem_of_mem_filter hsite)
  -- the words are the same, whatever they are taken from
  cases value with
  | scalar value => exact hfound _
  | nodes sites =>
    simp only [Value.map, elementsById, hwords sites hv]
    exact hfound _

theorem declaredLanguage?_map {site : Site} (hsite : s.document.Within site.id Document.root) :
    declaredLanguage? t.document (site.map φ) = declaredLanguage? s.document site := by
  have hnear : ∀ start : Site, s.document.Within start.id Document.root →
      ((start.map φ :: (start.map φ).ancestors t.document).findSome? fun above =>
        ((t.document.attributes above.id).find? fun a =>
          a.namespaceUri == some xmlNamespace && a.name == "lang").map Attribute.value) =
      (start :: start.ancestors s.document).findSome? fun above =>
        ((s.document.attributes above.id).find? fun a =>
          a.namespaceUri == some xmlNamespace && a.name == "lang").map Attribute.value := by
    intro start hstart
    rw [Site.ancestors_map h hs ht hstart, ← List.map_cons, ← List.head?_filterMap,
      ← List.head?_filterMap, List.filterMap_map]
    refine congrArg List.head? (List.filterMap_congr fun above ha => ?_)
    have habove : s.document.Within above.id Document.root := by
      rcases List.mem_cons.mp ha with rfl | ha
      · exact hstart
      · obtain ⟨id, hid, rfl⟩ := List.mem_map.mp ha
        refine Document.within_top_of_within hs.parent_root hstart (hs.mem_ancestors.mp ?_)
        split at hid
        · exact hid
        · exact List.mem_of_mem_drop hid
    simp only [Function.comp_def, Site.map, h.attributes_eq hs habove]
  unfold declaredLanguage?
  rw [Site.kind_map h hs hsite, Site.parent?_map h hs hsite]
  -- a node that is no element takes the language of its parent
  by_cases hkind : (site.kind s.document == .element) = true
  · simp only [hkind, if_true]
    exact hnear site hsite
  · simp only [hkind, Bool.false_eq_true, if_false]
    cases hp : site.parent? s.document with
    | none => rfl
    | some parent =>
      refine hnear parent ?_
      unfold Site.parent? at hp
      split at hp
      · exact Option.some.inj hp ▸ hsite
      · obtain ⟨id, hid, rfl⟩ := Option.map_eq_some_iff.mp hp
        exact Document.within_top_of_within hs.parent_root hsite (.single hid)

theorem sumOf_map {sites : List Site} (hsites : Value.Attached s.document (.nodes sites)) :
    sumOf t.document (sites.map (Site.map φ)) = sumOf s.document sites := by
  have hsum : ∀ start : Float,
      (sites.map (Site.map φ)).foldl
          (fun sum site => sum + Number.ofText (site.value t.document).toList) start =
        sites.foldl (fun sum site => sum + Number.ofText (site.value s.document).toList) start := by
    intro start
    induction sites generalizing start with
    | nil => rw [List.map_nil, List.foldl_nil, List.foldl_nil]
    | cons site sites ih =>
      obtain ⟨hsite, hrest⟩ := List.forall_mem_cons.mp hsites
      rw [List.map_cons, List.foldl_cons, List.foldl_cons, Site.value_map h hs ht hsite]
      exact ih hrest _
  rw [sumOf, sumOf, hsum]

section Functions

variable (hfocus : s.document.Within focus.site.id Document.root)

include hfocus

/-- What is asked of an optional node has the same answer, if that of attached nodes has. -/
theorem nodeArgument_text_map (name : String) {f : Document → Site → Option String}
    (hf : ∀ site : Site, s.document.Within site.id Document.root →
      f t.document (site.map φ) = f s.document site)
    {arguments : List Value} (ha : ∀ value ∈ arguments, value.Attached s.document) :
    (nodeArgument t (focus.map φ) name (arguments.map (Value.map φ))).map
        (fun site => Value.text ((site.bind (f t.document)).getD "")) =
      ((nodeArgument s focus name arguments).map
        fun site => Value.text ((site.bind (f s.document)).getD "")).map (Value.map φ) := by
  rw [nodeArgument_map h hs ht ha]
  cases hnode : nodeArgument s focus name arguments with
  | error e => rfl
  | ok site =>
    cases site with
    | none => rfl
    | some site =>
      have hsite : s.document.Within site.id Document.root := by
        cases arguments with
        | nil => exact Option.some.inj (Except.ok.inj hnode) ▸ hfocus
        | cons value rest =>
          cases value with
          | scalar value => cases hnode
          | nodes sites =>
            have hfirst : (s.ordered sites).head? = some site := Except.ok.inj hnode
            have hmem := (Ranked.mem_ordered site sites).mp (List.mem_of_head? hfirst)
            exact ha _ (List.mem_cons_self ..) site hmem
      simp only [Except.map, Option.map_some, Option.bind_some, hf site hsite]
      rfl

/-- A function takes corresponding arguments to corresponding results, or fails with the same
error. -/
theorem CoreFunction.apply_map (name : String) (arity : Arity) (function : CoreFunction)
    {arguments : List Value} (ha : ∀ value ∈ arguments, value.Attached s.document) :
    function.apply t .document (focus.map φ) name arity (arguments.map (Value.map φ)) =
      (function.apply s .document focus name arity arguments).map (Value.map φ) := by
  have hlocal := nodeArgument_text_map h hs ht hfocus name
    (f := fun doc site => (site.name? doc).map WrittenName.localName)
    (fun site hsite => by rw [Site.name?_map h hs hsite]) ha
  have huri := nodeArgument_text_map h hs ht hfocus name
    (f := fun doc site => site.namespaceUri? doc)
    (fun site hsite => Site.namespaceUri?_map h hs hsite) ha
  have hname := nodeArgument_text_map h hs ht hfocus name
    (f := fun doc site => (site.name? doc).map WrittenName.text)
    (fun site hsite => by rw [Site.name?_map h hs hsite]) ha
  have hown := textArgument_map h hs ht hfocus ha
  have htext := fun value hv => Value.toText_map h hs ht (ha value hv)
  have hnumber := fun value hv => Value.toNumber_map h hs ht (ha value hv)
  have hwrong : Except.error (Error.wrongArity name arity (arguments.map (Value.map φ)).length) =
      (Except.error (.wrongArity name arity arguments.length)).map (Value.map φ) := by
    rw [List.length_map]
    rfl
  unfold CoreFunction.apply
  dsimp only
  rw [hown]
  -- any other number of arguments than a function takes is the same error on both sides
  cases function with
  | last | position | always | never =>
    rcases arguments with _ | ⟨value, rest⟩
    · rfl
    · exact hwrong
  | localName =>
    rcases arguments with _ | ⟨value, _ | ⟨other, rest⟩⟩
    iterate 2 exact hlocal
    exact hwrong
  | namespaceUri =>
    rcases arguments with _ | ⟨value, _ | ⟨other, rest⟩⟩
    iterate 2 exact huri
    exact hwrong
  | name =>
    rcases arguments with _ | ⟨value, _ | ⟨other, rest⟩⟩
    iterate 2 exact hname
    exact hwrong
  | string | stringLength | normalizeSpace =>
    rcases arguments with _ | ⟨value, _ | ⟨other, rest⟩⟩
    iterate 2 rfl
    exact hwrong
  | count =>
    rcases arguments with _ | ⟨value, _ | ⟨other, rest⟩⟩
    · exact hwrong
    · change (requireNodes name (value.map φ)).map _ = ((requireNodes name value).map _).map _
      rw [requireNodes_map]
      cases requireNodes name value with
      | error e => rfl
      | ok sites => simp [Except.map, Value.number]
    · exact hwrong
  | sum =>
    rcases arguments with _ | ⟨value, _ | ⟨other, rest⟩⟩
    · exact hwrong
    · cases value with
      | scalar value => rfl
      | nodes sites =>
        have hsites := ha _ (List.mem_cons_self ..)
        simp [requireNodes, Except.map, sumOf_map h hs ht hsites, Value.number]
    · exact hwrong
  | byId =>
    rcases arguments with _ | ⟨value, _ | ⟨other, rest⟩⟩
    · exact hwrong
    · simp [elementsById_map h hs ht (ha _ (List.mem_cons_self ..)), Except.map]
    · exact hwrong
  | boolean | not =>
    rcases arguments with _ | ⟨value, _ | ⟨other, rest⟩⟩
    · exact hwrong
    · simp [Except.map, Value.boolean]
    · exact hwrong
  | number =>
    rcases arguments with _ | ⟨value, _ | ⟨other, rest⟩⟩
    · rfl
    · simp [hnumber, Except.map, Value.number]
    · exact hwrong
  | floor | ceiling | round =>
    rcases arguments with _ | ⟨value, _ | ⟨other, rest⟩⟩
    · exact hwrong
    · simp [hnumber, Except.map, Value.number]
    · exact hwrong
  | lang =>
    rcases arguments with _ | ⟨value, _ | ⟨other, rest⟩⟩
    · exact hwrong
    · simp [htext, Except.map, Focus.map, declaredLanguage?_map h hs ht hfocus, Value.boolean]
    · exact hwrong
  | startsWith | contains | substringBefore | substringAfter =>
    rcases arguments with _ | ⟨s, _ | ⟨part, _ | ⟨other, rest⟩⟩⟩
    iterate 2 exact hwrong
    · simp [htext, Except.map, Value.boolean, besides, Value.text]
    · exact hwrong
  | concat =>
    rcases arguments with _ | ⟨first, _ | ⟨second, rest⟩⟩
    iterate 2 exact hwrong
    have hjoined : ((first :: second :: rest).map (Value.map φ)).map (Value.toText t.document) =
        (first :: second :: rest).map (Value.toText s.document) := by
      rw [List.map_map]
      exact List.map_congr_left htext
    exact congrArg (fun texts => Except.ok (Value.text (String.join texts))) hjoined
  | substring =>
    rcases arguments with _ | ⟨text, _ | ⟨start, _ | ⟨length, _ | ⟨other, rest⟩⟩⟩⟩
    iterate 2 exact hwrong
    · simp [htext, hnumber, Except.map, Value.text]
    · simp [htext, hnumber, Except.map, Value.text]
    · exact hwrong
  | translate =>
    rcases arguments with _ | ⟨text, _ | ⟨replaced, _ | ⟨replacements, _ | ⟨other, rest⟩⟩⟩⟩
    iterate 3 exact hwrong
    · simp [htext, Except.map, Value.text]
    · exact hwrong

end Functions

end MarkupQuery.Query
