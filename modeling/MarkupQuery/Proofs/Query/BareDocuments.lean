import MarkupQuery.Proofs.Query.Steps
import MarkupQuery.Proofs.Tree.Elementwise

namespace MarkupQuery.Tree.Document

section Walks

variable (doc : Document)

@[simp] theorem parent_bare : doc.bare.parent = doc.parent := parent_mapElements Element.bare doc

@[simp] theorem children_bare : doc.bare.children = doc.children :=
  children_mapElements Element.bare doc

@[simp] theorem ancestors_bare : doc.bare.ancestors = doc.ancestors :=
  ancestors_mapElements Element.bare doc

@[simp] theorem descendants_bare : doc.bare.descendants = doc.descendants :=
  descendants_mapElements Element.bare doc

@[simp] theorem ranks_bare : doc.bare.ranks = doc.ranks := by simp [ranks, subtree]

end Walks

@[simp] theorem namespaceUri?_bare (doc : Document) : doc.bare.namespaceUri? = doc.namespaceUri? := by
  funext id
  rw [namespaceUri?, namespaceUri?, element?, element?, payload_bare]
  cases doc.payload id <;> rfl

@[simp] theorem textContent_bare (doc : Document) : doc.bare.textContent = doc.textContent := by
  have htext : ∀ id, textOf (doc.bare.payload id) = textOf (doc.payload id) := by
    intro id
    rw [payload_bare]
    cases doc.payload id <;> rfl
  funext id
  simp only [textContent, htext, descendants_bare]
  rw [payload_bare]
  cases doc.payload id <;> rfl

end MarkupQuery.Tree.Document

namespace MarkupQuery.Query

open MarkupQuery.Tree MarkupQuery.Text

namespace Site

variable (doc : Document)

@[simp] theorem kind_bare : kind doc.bare = kind doc := by
  funext site
  simp only [kind, Document.payload_bare]
  cases doc.payload site.id <;> rfl

theorem attribute?_bare (site : Site) :
    site.attribute? doc.bare = (site.attribute? doc).map Attribute.bare := by
  unfold attribute?
  rw [Document.attributes_bare]
  cases site.index <;> simp

@[simp] theorem localName_bare (site : Site) : (site.name? doc.bare).map WrittenName.localName =
    (site.name? doc).map WrittenName.localName := by
  simp only [name?, attribute?_bare, Document.payload_bare]
  split
  · cases site.attribute? doc <;> rfl
  · cases doc.payload site.id <;> rfl

@[simp] theorem namespaceUri?_bare : namespaceUri? doc.bare = namespaceUri? doc := by
  funext site
  simp only [namespaceUri?, attribute?_bare, Document.namespaceUri?_bare]
  cases site.attribute? doc <;> rfl

@[simp] theorem value_bare : value doc.bare = value doc := by
  funext site
  simp only [value, attribute?_bare, Document.textContent_bare]
  cases site.attribute? doc <;> rfl

@[simp] theorem attributes_bare : attributes doc.bare = attributes doc := by
  funext site
  simp only [attributes, Document.attributes_bare, List.length_map]

@[simp] theorem parent?_bare : parent? doc.bare = parent? doc := by
  funext site
  simp only [parent?, Document.parent_bare]

@[simp] theorem ancestors_bare : ancestors doc.bare = ancestors doc := by
  funext site
  simp only [ancestors, Document.ancestors_bare]

@[simp] theorem children_bare : children doc.bare = children doc := by
  funext site
  simp only [children, Document.children_bare]

@[simp] theorem walk_bare : walk doc.bare = walk doc := by
  funext fuel stack
  induction fuel generalizing stack with
  | zero => rfl
  | succ fuel ih =>
    cases stack with
    | nil => rfl
    | cons top stack => simp only [walk, children_bare, ih]

@[simp] theorem descendants_bare : descendants doc.bare = descendants doc := by
  funext site
  simp only [descendants, children_bare, walk_bare, Document.size_bare]

@[simp] theorem siblings_bare : siblings doc.bare = siblings doc := by
  funext site
  simp only [siblings, parent?_bare, children_bare]

@[simp] theorem followingSiblings_bare : followingSiblings doc.bare = followingSiblings doc := by
  funext site
  simp only [followingSiblings, siblings_bare]

@[simp] theorem precedingSiblings_bare : precedingSiblings doc.bare = precedingSiblings doc := by
  funext site
  simp only [precedingSiblings, siblings_bare]

@[simp] theorem subtree_bare : subtree doc.bare = subtree doc := by
  funext site
  simp only [subtree, descendants_bare]

end Site

theorem Axis.sites_bare (axis : Axis) (doc : Document) :
    axis.sites doc.bare = axis.sites doc := by
  funext site
  cases axis with
  | following => simp [Axis.sites, Site.following]
  | preceding => simp [Axis.sites, Site.preceding]
  | _ => simp [Axis.sites]

/-- A test compares namespaces and local names. -/
theorem ResolvedTest.admits_bare (test : ResolvedTest) (doc : Document) (axis : Axis) :
    test.admits doc.bare axis = test.admits doc axis := by
  funext site
  cases test with
  | name uri localName =>
    have hname : ∀ name? : Option WrittenName, (name?.any fun name => name.localName == localName) =
        (name?.map WrittenName.localName).any (· == localName) := fun name? => by cases name? <;> rfl
    simp only [admits, hname, Site.kind_bare, Site.namespaceUri?_bare, Site.localName_bare]
  | anyIn uri => simp [admits]
  | any | type wanted => simp [admits]

def Ranked.bare (source : Ranked) : Ranked := .of source.document.bare

namespace Ranked

variable (source : Ranked)

@[simp] theorem document_bare : source.bare.document = source.document.bare := rfl

@[simp] theorem before_bare : source.bare.before = source.before := by
  funext a b
  simp [before, Ranked.rank_eq, Document.rank]

@[simp] theorem ordered_bare : source.bare.ordered = source.ordered := by
  have hone : source.bare.mergeOne = source.mergeOne := by
    funext a more bs
    induction bs with
    | nil => rfl
    | cons b bs ih => simp only [mergeOne, before_bare, ih]
  have htwo : source.bare.mergeTwo = source.mergeTwo := by
    funext as
    induction as with
    | nil => rfl
    | cons a as ih => simp only [mergeTwo, hone, ih]
  have hadd : source.bare.addRun = source.addRun := by
    funext run runs
    induction runs generalizing run with
    | nil => rfl
    | cons other runs ih => cases other <;> simp only [addRun, htwo, ih]
  funext sites
  simp only [ordered, hadd, htwo]

@[simp] theorem first?_bare : source.bare.first? = source.first? := by
  funext sites
  simp only [first?, ordered_bare]

end Ranked

@[simp] theorem Value.toText_bare (doc : Document) : Value.toText doc.bare = Value.toText doc := by
  funext value
  cases value <;> simp [Value.toText]

@[simp] theorem Value.toNumber_bare (doc : Document) :
    Value.toNumber doc.bare = Value.toNumber doc := by
  funext value
  cases value <;> simp [Value.toNumber]

theorem BinaryOp.apply_bare (source : Ranked) (op : BinaryOp) :
    op.apply source.bare = op.apply source := by
  funext left right
  have hcompare : Value.compare source.document.bare = Value.compare source.document := by
    funext op left right
    have hvalues : Value.comparands source.document.bare = Value.comparands source.document := by
      funext value other
      cases value <;> simp only [Value.comparands, Site.value_bare]
    simp only [Value.compare, hvalues]
  have hmerge : merge source.bare left right = merge source left right := by
    cases left <;> cases right <;> simp [merge]
  cases op <;> simp [BinaryOp.apply, hcompare, hmerge]

section Functions

variable (source : Ranked) (root : Site) (focus : Focus)

theorem nodeArgument_bare (function : String) (arguments : List Value) :
    nodeArgument source.bare focus function arguments =
      nodeArgument source focus function arguments := by
  cases arguments <;> simp [nodeArgument]

theorem textArgument_bare (doc : Document) (arguments : List Value) :
    textArgument doc.bare focus arguments = textArgument doc focus arguments := by
  cases arguments <;> simp [textArgument]

theorem find_map_bare {α : Type} (p : Attribute → Bool) (hp : ∀ a, p a.bare = p a)
    (f : Attribute → α) (hf : ∀ a, f a.bare = f a) (attributes : List Attribute) :
    ((attributes.map Attribute.bare).find? p).map f = (attributes.find? p).map f := by
  rw [List.find?_map, show p ∘ Attribute.bare = p from funext hp]
  cases attributes.find? p <;> simp [hf]

theorem elementsById_bare (value : Value) :
    elementsById source.bare root value = elementsById source root value := by
  have hid : hasId source.document.bare = hasId source.document := by
    funext wanted site
    simp only [hasId, Document.attributes_bare, List.any_map]
    rfl
  simp only [elementsById, Ranked.document_bare, hid, Site.value_bare, Site.descendants_bare,
    Ranked.ordered_bare]

theorem declaredLanguage?_bare (doc : Document) (site : Site) :
    declaredLanguage? doc.bare site = declaredLanguage? doc site := by
  have hfind := fun site : Site => find_map_bare
    (fun a => a.namespaceUri == some xmlNamespace && a.name == "lang") (fun _ => rfl)
    Attribute.value (fun _ => rfl) (doc.attributes site.id)
  simp only [declaredLanguage?, Document.attributes_bare, hfind, Site.kind_bare, Site.parent?_bare,
    Site.ancestors_bare]

/-- Only one function shows a name as it is written. -/
theorem CoreFunction.apply_bare {function : CoreFunction} (h : function ≠ .name) (name : String)
    (arity : Arity) (arguments : List Value) :
    function.apply source.bare root focus name arity arguments =
      function.apply source root focus name arity arguments := by
  have hsum : sumOf source.document.bare = sumOf source.document := by
    funext sites
    simp [sumOf]
  unfold CoreFunction.apply
  simp only [Ranked.document_bare, nodeArgument_bare, textArgument_bare, elementsById_bare,
    declaredLanguage?_bare, hsum, Value.toText_bare, Value.toNumber_bare, Site.localName_bare,
    Site.namespaceUri?_bare]
  -- both sides choose the same result by the function and the number of arguments
  cases function with
  | name => exact absurd rfl h
  | _ => rcases arguments with _ | ⟨_, _ | ⟨_, _ | ⟨_, _ | ⟨_, _⟩⟩⟩⟩ <;> rfl

end Functions

end MarkupQuery.Query
