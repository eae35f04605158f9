import Mathlib.Data.List.TakeWhile
import MarkupQuery.Proofs.Tree.Outline
import MarkupQuery.Proofs.Tree.Layout

namespace MarkupQuery.Tree

def declaredAs (qualifier : String) (ds : List Declaration) : List String :=
  (ds.filter fun d => d.qualifier == some qualifier).map Declaration.uri

def boundAs (qualifier : String) (tags : List (List Declaration)) : Option (List String) :=
  (tags.map (declaredAs qualifier)).find? fun uris => !uris.isEmpty

/-- A name with this prefix and namespace, inside these tags, has its prefix bound to its namespace
and to nothing else. The prefix xml needs no declaration. -/
def NameBound (tags : List (List Declaration)) (qualifier uri : Option String) : Prop :=
  ∀ q, qualifier = some q → q ≠ "xml" → ∃ u, uri = some u ∧ boundAs q tags = some [u]

def Element.NamesBound (e : Element) (tags : List (List Declaration)) : Prop :=
  NameBound tags e.qualifier e.namespaceUri ∧
    ∀ a ∈ e.attributes, NameBound tags a.qualifier a.namespaceUri

namespace Document

def declaredAt (doc : Document) (qualifier : Option String) (id : NodeId) : Option String :=
  ((doc.declarations id).find? fun d => d.qualifier == qualifier).map Declaration.uri

def declaredWithin (doc : Document) (top id : NodeId) (qualifier : Option String) :
    Option String :=
  (doc.upTo top id).findSome? (doc.declaredAt qualifier)

/-- A name of the element at `id` relies on a declaration. -/
def ReliesOn (doc : Document) (id : NodeId) (d : Declaration) : Prop :=
  ∃ e, doc.element? id = some e ∧ d ∈ e.needed

/-- The markup of `top` has the declaration that a name at `id` relies on. Either the nearest
element that declares the prefix has it; or no element between does, and then no element below
`top` may declare the same, and `top` may lack no other declaration of the prefix. -/
def Supplies (doc : Document) (top id : NodeId) (d : Declaration) : Prop :=
  doc.declaredWithin top id d.qualifier = some d.uri ∨
    doc.declaredWithin top id d.qualifier = none ∧
      (∀ below ∈ doc.subtree top, d ∉ doc.declarations below) ∧
      ∀ below ∈ doc.subtree top, ∀ other, doc.ReliesOn below other →
        other.qualifier = d.qualifier → doc.declaredWithin top below d.qualifier = none → other = d

end Document

theorem declaredAs_prefixed (q : String) (ds : List Declaration) :
    declaredAs q (prefixed ds) = declaredAs q ds := by
  unfold declaredAs prefixed
  rw [List.filter_filter]
  congr 2
  funext d
  cases hd : d.qualifier <;> simp

theorem boundAs_prefixed (q : String) (tags : List (List Declaration)) :
    boundAs q (tags.map prefixed) = boundAs q tags := by
  unfold boundAs
  rw [List.map_map]
  congr 2
  funext ds
  exact declaredAs_prefixed q ds

theorem declaredAs_append (q : String) (ds ds' : List Declaration) :
    declaredAs q (ds ++ ds') = declaredAs q ds ++ declaredAs q ds' := by
  simp [declaredAs]

/-- A prefix that is declared at most once has at most one URI. -/
theorem DeclaredOnce.declaredAs_eq {ds : List Declaration} (h : DeclaredOnce ds) (q : String) :
    declaredAs q ds =
      ((ds.find? fun d => d.qualifier == some q).map Declaration.uri).toList := by
  induction ds with
  | nil => rfl
  | cons d ds ih =>
    obtain ⟨hd, hds⟩ := List.pairwise_cons.mp h
    by_cases hq : d.qualifier = some q
    · have hrest : ds.filter (fun d => d.qualifier == some q) = [] := by
        refine List.filter_eq_nil_iff.mpr fun other ho => ?_
        simpa using fun he : other.qualifier = some q => hd other ho (by simp [hq]) (hq.trans he.symm)
      simp [declaredAs, hq, hrest]
    · rw [List.find?_cons_of_neg (by simpa using hq), ← ih hds]
      simp [declaredAs, hq]

theorem neededDeclaration_eq_some {qualifier uri : Option String} {d : Declaration} :
    neededDeclaration qualifier uri = some d ↔
      ∃ q u, qualifier = some q ∧ uri = some u ∧ q ≠ "xml" ∧ ⟨some q, u⟩ = d := by
  cases qualifier with
  | none => simp [neededDeclaration]
  | some q =>
    cases uri with
    | none => simp [neededDeclaration]
    | some u =>
      by_cases hx : q = "xml" <;> simp [neededDeclaration, hx]

theorem nameBound_iff {tags : List (List Declaration)} {qualifier uri : Option String}
    (h : qualifier.isSome → uri.isSome) : NameBound tags qualifier uri ↔
      ∀ q u, neededDeclaration qualifier uri = some ⟨some q, u⟩ → boundAs q tags = some [u] := by
  simp only [neededDeclaration_eq_some, NameBound]
  constructor
  · rintro hb q u ⟨_, _, hq, hu, hx, ⟨⟩⟩
    obtain ⟨v, hv, hbound⟩ := hb q hq hx
    rwa [Option.some.inj (hu.symm.trans hv)]
  · intro hb q hq hx
    obtain ⟨u, hu⟩ := Option.isSome_iff_exists.mp (h (by simp [hq]))
    exact ⟨u, hu, hb q u ⟨q, u, hq, hu, hx, rfl⟩⟩

theorem exists_qualifier_of_mem_needed {e : Element} {d : Declaration} (h : d ∈ e.needed) :
    ∃ q, d.qualifier = some q := by
  simp only [Element.needed, List.mem_append, Option.mem_toList, List.mem_filterMap,
    neededDeclaration_eq_some] at h
  rcases h with ⟨q, _, -, -, -, rfl⟩ | ⟨_, -, q, _, -, -, -, rfl⟩ <;> exact ⟨q, rfl⟩

/-- The prefixes of an element are bound if the declarations are that its names rely on. -/
theorem Element.Qualified.namesBound_iff {e : Element} (h : e.Qualified)
    {tags : List (List Declaration)} :
    e.NamesBound tags ↔ ∀ q u, ⟨some q, u⟩ ∈ e.needed → boundAs q tags = some [u] := by
  unfold Element.NamesBound
  rw [nameBound_iff h.element]
  simp only [Element.needed, List.mem_append, Option.mem_toList, List.mem_filterMap]
  constructor
  · rintro ⟨he, ha⟩ q u (hn | ⟨a, hmem, hn⟩)
    · exact he q u hn
    · exact (nameBound_iff (h.attributes a hmem)).mp (ha a hmem) q u hn
  · intro hb
    refine ⟨fun q u hn => hb q u (.inl hn), fun a hmem => ?_⟩
    exact (nameBound_iff (h.attributes a hmem)).mpr fun q u hn => hb q u (.inr ⟨a, hmem, hn⟩)

section Missing

variable {declared missing needed : List Declaration}

theorem mem_addMissing {d : Declaration} : d ∈ Document.addMissing declared missing needed ↔
    d ∈ missing ∨ d ∈ needed ∧ d ∉ declared := by
  induction needed generalizing missing with
  | nil => simp [Document.addMissing]
  | cons x needed ih =>
    unfold Document.addMissing
    split
    · rename_i hx
      simp only [Bool.or_eq_true, List.contains_eq_mem, decide_eq_true_eq] at hx
      rw [ih, List.mem_cons]
      grind
    · rename_i hx
      simp only [Bool.or_eq_true, List.contains_eq_mem, decide_eq_true_eq] at hx
      rw [ih, List.mem_append, List.mem_singleton, List.mem_cons]
      grind

theorem nodup_addMissing (h : missing.Nodup) :
    (Document.addMissing declared missing needed).Nodup := by
  induction needed generalizing missing with
  | nil => exact h
  | cons x needed ih =>
    unfold Document.addMissing
    split
    · exact ih h
    · rename_i hx
      simp only [Bool.or_eq_true, List.contains_eq_mem, decide_eq_true_eq, not_or] at hx
      exact ih (List.nodup_append.mpr ⟨h, by simp, by
        rintro a ha b hb rfl
        exact hx.2 (List.mem_singleton.mp hb ▸ ha)⟩)

end Missing

theorem findSome?_congr {α β : Type} {f g : α → Option β} {l : List α} (h : ∀ x ∈ l, f x = g x) :
    l.findSome? f = l.findSome? g := by
  induction l with
  | nil => rfl
  | cons x l ih =>
    rw [List.findSome?_cons, List.findSome?_cons, h x List.mem_cons_self,
      ih fun y hy => h y (List.mem_cons_of_mem x hy)]

theorem find_toList {α β : Type} (f : α → Option β) (l : List α) :
    (l.map fun x => (f x).toList).find? (fun found => !found.isEmpty) =
      (l.findSome? f).map fun found => [found] := by
  induction l with
  | nil => rfl
  | cons x l ih => cases hx : f x <;> simp [hx, ih]

namespace Document

variable {doc : Document} {top x : NodeId} {q u v : String} {more : List Declaration}

theorem Every.declaredOnce (h : doc.Every Element.Resolved) (id : NodeId) :
    DeclaredOnce (doc.declarations id) := by
  unfold Document.declarations Document.element?
  cases hp : doc.payload id with
  | element e => exact (h id e hp).declarations
  | _ => exact .nil

theorem declaredWithin_eq (doc : Document) (top x : NodeId) (q : Option String) :
    doc.declaredWithin top x q =
      (((doc.ancestors x).takeWhile (· != top)).findSome? (doc.declaredAt q)).or
        (doc.declaredAt q top) := by
  rw [declaredWithin, upTo, List.findSome?_append]
  simp

/-- The nearest tag that declares a prefix is that of the nearest element which declares it, or the
one to which declarations are added. -/
theorem boundAs_upTo (h : ∀ id ∈ doc.upTo top x, DeclaredOnce (doc.declarations id)) :
    boundAs q ((doc.upTo top x).map (doc.tagDeclarations top more)) =
      ((((doc.ancestors x).takeWhile (· != top)).findSome? (doc.declaredAt (some q))).map
        fun u => [u]).or
        ((some ((doc.declaredAt (some q) top).toList ++ declaredAs q more)).filter
          fun uris => !uris.isEmpty) := by
  have hown := fun id hid => (h id hid).declaredAs_eq q
  unfold boundAs upTo
  rw [List.map_append, List.map_append, List.find?_append, List.map_map]
  refine congrArg₂ _ ?_ ?_
  · rw [← find_toList]
    refine congrArg _ (List.map_congr_left fun id hid => ?_)
    have hne : id ≠ top := by simpa using List.mem_takeWhile_imp hid
    simp only [Function.comp, tagDeclarations, if_neg hne, List.append_nil, declaredAs_prefixed,
      hown id (List.mem_append_left _ hid)]
    rfl
  · simp only [List.map_cons, List.map_nil, tagDeclarations, declaredAs_prefixed,
      declaredAs_append, hown top (by simp [upTo]), if_true, List.find?_singleton]
    rfl

theorem declaredAs_missingDefault (doc : Document) (top : NodeId) (q : String) :
    declaredAs q (doc.missingDefault top) = [] := by
  unfold missingDefault
  split
  · rfl
  · split <;> simp [declaredAs]

theorem mem_declaredAs {ds : List Declaration} : u ∈ declaredAs q ds ↔ ⟨some q, u⟩ ∈ ds := by
  simp only [declaredAs, List.mem_map, List.mem_filter, beq_iff_eq]
  constructor
  · rintro ⟨⟨_, _⟩, ⟨hd, rfl⟩, rfl⟩
    exact hd
  · intro hd
    exact ⟨_, ⟨hd, rfl⟩, rfl⟩

theorem reliesOn_iff {d : Declaration} :
    doc.ReliesOn x d ↔ d ∈ ((doc.element? x).map Element.needed).getD [] := by
  unfold ReliesOn
  cases doc.element? x <;> simp

/-- The declarations that a subtree lacks for its prefixes are those that its names rely on and that
no element of it has. -/
theorem mem_declaredAs_undeclared : u ∈ declaredAs q (doc.undeclared top) ↔
    (∃ x ∈ doc.subtree top, doc.ReliesOn x ⟨some q, u⟩) ∧
      ∀ x ∈ doc.subtree top, ⟨some q, u⟩ ∉ doc.declarations x := by
  rw [undeclared, declaredAs_append, declaredAs_missingDefault, List.nil_append, mem_declaredAs,
    mem_addMissing]
  simp only [List.not_mem_nil, false_or, List.mem_flatMap, not_exists, not_and, reliesOn_iff]

theorem nodup_declaredAs_undeclared (doc : Document) (top : NodeId) (q : String) :
    (declaredAs q (doc.undeclared top)).Nodup := by
  rw [undeclared, declaredAs_append, declaredAs_missingDefault, List.nil_append]
  unfold declaredAs
  refine List.Nodup.map_on ?_ ((nodup_addMissing List.nodup_nil).filter _)
  rintro ⟨_, _⟩ hd ⟨_, _⟩ hd' rfl
  simp only [List.mem_filter, beq_iff_eq] at hd hd'
  rw [hd.2, hd'.2]

theorem eq_singleton_iff_of_nodup {α : Type} {l : List α} {x : α} (h : l.Nodup) :
    l = [x] ↔ x ∈ l ∧ ∀ y ∈ l, y = x := by
  constructor
  · rintro rfl
    simp
  · rintro ⟨hx, hall⟩
    refine List.perm_singleton.mp ((List.perm_ext_iff_of_nodup h (List.nodup_singleton x)).mpr ?_)
    intro y
    rw [List.mem_singleton]
    exact ⟨hall y, fun hy => hy ▸ hx⟩

section Supplied

variable (h : ∀ id ∈ doc.upTo top x, DeclaredOnce (doc.declarations id))
include h

/-- A binding that elements between have is the one in the markup, unless the added declarations
stand beside it. -/
theorem boundAs_of_declaredWithin (hv : doc.declaredWithin top x (some q) = some u)
    (hmore : (doc.declaredAt (some q) top).isSome → declaredAs q more = []) :
    boundAs q ((doc.upTo top x).map (doc.tagDeclarations top more)) = some [u] := by
  rw [declaredWithin_eq, Option.or_eq_some_iff] at hv
  rw [boundAs_upTo h]
  rcases hv with hv | ⟨hnone, hv⟩
  · simp [hv]
  · simp [hnone, hv, hmore (by simp [hv])]

theorem declaredWithin_of_boundAs (hv : doc.declaredWithin top x (some q) = some v)
    (hb : boundAs q ((doc.upTo top x).map (doc.tagDeclarations top more)) = some [u]) : v = u := by
  rw [declaredWithin_eq, Option.or_eq_some_iff] at hv
  rw [boundAs_upTo h] at hb
  rcases hv with hv | ⟨hnone, hv⟩
  · simpa [hv] using hb
  · obtain ⟨hvu, -⟩ : v = u ∧ declaredAs q more = [] := by simpa [hnone, hv] using hb
    exact hvu

theorem boundAs_of_none (hnone : doc.declaredWithin top x (some q) = none) :
    boundAs q ((doc.upTo top x).map (doc.tagDeclarations top more)) = some [u] ↔
      declaredAs q more = [u] := by
  rw [declaredWithin_eq, Option.or_eq_none_iff] at hnone
  rw [boundAs_upTo h, hnone.1, hnone.2]
  cases declaredAs q more <;> simp

end Supplied

/-- A binding that elements between have is declared in the subtree. -/
theorem exists_declaration_of_declaredWithin (hf : Forest doc doc.children)
    (hx : x ∈ doc.subtree top) (hv : doc.declaredWithin top x (some q) = some v) :
    ∃ y ∈ doc.subtree top, ⟨some q, v⟩ ∈ doc.declarations y := by
  obtain ⟨y, hy, hfound⟩ := List.exists_of_findSome?_eq_some hv
  refine ⟨y, hf.mem_subtree.mpr (hf.within_of_mem_upTo (hf.mem_subtree.mp hx) hy), ?_⟩
  obtain ⟨d, hd, rfl⟩ := Option.map_eq_some_iff.mp hfound
  have hq : d.qualifier = some q := by simpa using List.find?_some hd
  rw [← hq]
  exact List.mem_of_find?_eq_some hd

/-- The prefixes at all names are bound in the markup of `top` if it supplies all declarations that
the names rely on. -/
theorem boundAs_iff_supplies (he : doc.Every Element.Resolved) (hf : Forest doc doc.children) :
    (∀ x ∈ doc.subtree top, ∀ q u, doc.ReliesOn x ⟨some q, u⟩ →
      boundAs q ((doc.upTo top x).map (doc.tagDeclarations top (doc.undeclared top))) = some [u]) ↔
    ∀ x ∈ doc.subtree top, ∀ q u, doc.ReliesOn x ⟨some q, u⟩ → doc.Supplies top x ⟨some q, u⟩ := by
  have h : ∀ x, ∀ id ∈ doc.upTo top x, DeclaredOnce (doc.declarations id) :=
    fun _ id _ => he.declaredOnce id
  constructor
  · intro hall x hx q u hr
    have hb := hall x hx q u hr
    cases hw : doc.declaredWithin top x (some q) with
    | some v =>
      refine .inl ?_
      rw [← declaredWithin_of_boundAs (h x) hw hb]
      exact hw
    | none =>
      -- nothing between declares the prefix, so what is added at the top decides
      rw [boundAs_of_none (h x) hw] at hb
      have hmem : u ∈ declaredAs q (doc.undeclared top) := by simp [hb]
      refine .inr ⟨hw, (mem_declaredAs_undeclared.mp hmem).2, ?_⟩
      -- a second name of this kind has its declaration at the top too, and there is one
      rintro y hy ⟨_, w⟩ ho rfl hnone
      have hb' := hall y hy q w ho
      rw [boundAs_of_none (h y) hnone, hb] at hb'
      rw [(List.cons.inj hb').1]
  · intro hall x hx q u hr
    -- what is added at the top is added for a name that nothing between supplies
    have hmissing : ∀ w, w ∈ declaredAs q (doc.undeclared top) → ∃ y ∈ doc.subtree top,
        doc.ReliesOn y ⟨some q, w⟩ ∧ doc.declaredWithin top y (some q) = none := by
      intro w hw
      obtain ⟨⟨y, hy, hr⟩, hnot⟩ := mem_declaredAs_undeclared.mp hw
      refine ⟨y, hy, hr, ?_⟩
      rcases hall y hy q w hr with hv | ⟨hv, -⟩
      · obtain ⟨z, hz, hd⟩ := exists_declaration_of_declaredWithin hf hy hv
        exact absurd hd (hnot z hz)
      · exact hv
    rcases hall x hx q u hr with hw | ⟨hw, hnot, hother⟩
    · refine boundAs_of_declaredWithin (h x) hw fun htop => List.eq_nil_iff_forall_not_mem.mpr ?_
      intro w hw'
      obtain ⟨y, -, -, hnone⟩ := hmissing w hw'
      rw [declaredWithin_eq, Option.or_eq_none_iff] at hnone
      simp [hnone.2] at htop
    · rw [boundAs_of_none (h x) hw, eq_singleton_iff_of_nodup (nodup_declaredAs_undeclared doc top q)]
      refine ⟨mem_declaredAs_undeclared.mpr ⟨⟨x, hx, hr⟩, hnot⟩, fun w hw' => ?_⟩
      obtain ⟨y, hy, hry, hnone⟩ := hmissing w hw'
      exact (Declaration.mk.inj (hother y hy _ hry rfl hnone)).2

/-- What is said of all start tags in the markup of an element is said of all elements from it
downwards. -/
theorem forall_tags_iff (hf : Forest doc doc.children) (htop : doc.isElement top) (void : Bool)
    {Q : Element → List (List Declaration) → Prop}
    (hQ : ∀ e tags, Q e (tags.map prefixed) ↔ Q e tags) :
    (∀ tag ∈ Outline.allTags [] (doc.outline void top), Q tag.1 tag.2) ↔
      ∀ x ∈ doc.subtree top, ∀ e, doc.element? x = some e →
        Q e ((doc.upTo top x).map (doc.tagDeclarations top (doc.undeclared top))) := by
  have hp : doc.payload top ≠ .document := by
    intro hp
    simp [isElement, hp, Payload.isElement, Payload.element?] at htop
  have htags := hf.tags_outlineUpTo (void && doc.isHtml) (doc.size + 1) (doc.undeclared top) "" []
    top (by omega) hp
  have hmap : (∀ tag ∈ Outline.allTags [] (doc.outline void top), Q tag.1 tag.2) ↔
      ∀ tag ∈ (Outline.allTags [] (doc.outline void top)).map
        (fun tag => (tag.1, tag.2.map prefixed)), Q tag.1 tag.2 := by
    simp only [List.forall_mem_map, hQ]
  rw [hmap, outline, if_pos htop, htags]
  simp only [List.mem_filterMap, Option.map_eq_some_iff, List.map_nil, List.append_nil]
  constructor
  · intro hall x hx e he
    exact hall _ ⟨x, hx, e, he, rfl⟩
  · rintro hall _ ⟨x, hx, e, he, rfl⟩
    exact hall x hx e he

end Document

/-- Documents that were read from markup and whose nodes were then moved. -/
inductive Document.Rearranged : Document → Prop
  | parse {markup : String} {doc : Document} (h : Document.parse markup = .ok doc) : doc.Rearranged
  | move {doc new : Document} (h : doc.Rearranged) (move : Move)
    (ho : move.change.make doc = .ok new) : new.Rearranged

namespace Document.Rearranged

variable {doc : Document}

theorem reachable (h : doc.Rearranged) : doc.Reachable := by
  induction h with
  | parse hp => exact .parse hp
  | @move doc new _ move ho ih =>
    have hnew := ih.change_alone move.change (by cases move <;> simp [Move.change])
    rwa [Change.apply, ho] at hnew

theorem every_resolved (h : doc.Rearranged) : doc.Every Element.Resolved := by
  induction h with
  | parse hp => exact .parse hp
  | move h move ho ih => exact ih.of_payload_eq (Move.payload_eq h.reachable.forest ho)

/-- The markup of an element binds the prefixes of all names in it to their namespaces if, and only
if, it supplies each declaration that a name relies on. -/
theorem prefixes_bound_iff (h : doc.Rearranged) {top : NodeId} (htop : doc.isElement top)
    (void : Bool) :
    Outline.renderAll (doc.outline void top) = doc.markup void top ∧
      ((∀ tag ∈ Outline.allTags [] (doc.outline void top), tag.1.NamesBound tag.2) ↔
        ∀ x ∈ doc.subtree top, ∀ d, doc.ReliesOn x d → doc.Supplies top x d) := by
  refine ⟨render_outline htop, ?_⟩
  have hf := h.reachable.forest
  have hnames : ∀ (e : Element) (tags : List (List Declaration)),
      e.NamesBound (tags.map prefixed) ↔ e.NamesBound tags := by
    simp [Element.NamesBound, NameBound, boundAs_prefixed]
  have hqualified : ∀ x e, doc.element? x = some e → e.Qualified := by
    intro x e he
    unfold Document.element? at he
    cases hp : doc.payload x with
    | element e' =>
      rw [hp] at he
      exact Option.some.inj he ▸ (h.every_resolved x e' hp).qualified
    | _ => simp [hp, Payload.element?] at he
  -- for every name: bound by the tags around it, that is, supplied by what they declare
  calc (∀ tag ∈ Outline.allTags [] (doc.outline void top), tag.1.NamesBound tag.2)
      ↔ ∀ x ∈ doc.subtree top, ∀ q u, doc.ReliesOn x ⟨some q, u⟩ → boundAs q
          ((doc.upTo top x).map (doc.tagDeclarations top (doc.undeclared top))) = some [u] := by
        rw [forall_tags_iff hf htop void hnames]
        refine forall₂_congr fun x hx => ⟨?_, ?_⟩
        · rintro hall q u ⟨e, he, hd⟩
          exact (hqualified x e he).namesBound_iff.mp (hall e he) q u hd
        · intro hall e he
          exact (hqualified x e he).namesBound_iff.mpr fun q u hd => hall q u ⟨e, he, hd⟩
    _ ↔ ∀ x ∈ doc.subtree top, ∀ q u, doc.ReliesOn x ⟨some q, u⟩ →
          doc.Supplies top x ⟨some q, u⟩ := boundAs_iff_supplies h.every_resolved hf
    _ ↔ ∀ x ∈ doc.subtree top, ∀ d, doc.ReliesOn x d → doc.Supplies top x d := by
        refine forall₂_congr fun x hx => ⟨?_, fun hall q u => hall _⟩
        rintro hall ⟨_, u⟩ ⟨e, he, hd⟩
        obtain ⟨q, rfl⟩ := exists_qualifier_of_mem_needed hd
        exact hall q u ⟨e, he, hd⟩

end Document.Rearranged

def redeclaredMarkup : String :=
  "<r xmlns:p=\"u\"><a><p:x/><b xmlns:p=\"v\"><c xmlns:p=\"u\"/></b></a></r>"

def redeclared : Document := .ofMarkup redeclaredMarkup

theorem parse_redeclared : Document.parse redeclaredMarkup = .ok redeclared :=
  Document.parse_ofMarkup (by decide +kernel)

/-- The root element of the same document has its declaration, so its markup binds all prefixes. -/
theorem prefixes_bound_iff_redeclared : redeclared.Rearranged ∧ redeclared.isElement 1 ∧
    redeclared.markup true 1 =
      "<r xmlns:p=\"u\"><a><p:x></p:x><b xmlns:p=\"v\"><c xmlns:p=\"u\"></c></b></a></r>" ∧
    ((∀ tag ∈ Outline.allTags [] (redeclared.outline true 1), tag.1.NamesBound tag.2) ↔
      ∀ x ∈ redeclared.subtree 1, ∀ d, redeclared.ReliesOn x d → redeclared.Supplies 1 x d) := by
  have h : redeclared.Rearranged := .parse parse_redeclared
  have helement : redeclared.isElement 1 = true := by decide +kernel
  exact ⟨h, helement, by decide +kernel, (h.prefixes_bound_iff helement true).2⟩

/-- In the markup of the element `a` nothing declares the prefix of `x`: the declaration on `c`, which
is elsewhere, counts for it. So the markup cannot be read. -/
theorem prefix_unbound_redeclared : Document.parse redeclaredMarkup = .ok redeclared ∧
    redeclared.isAttached 2 = true ∧
    redeclared.markup true 2 =
      "<a><p:x></p:x><b xmlns:p=\"v\"><c xmlns:p=\"u\"></c></b></a>" ∧
    Outline.renderAll (redeclared.outline true 2) = redeclared.markup true 2 ∧
    ¬ (∀ tag ∈ Outline.allTags [] (redeclared.outline true 2), tag.1.NamesBound tag.2) ∧
    (Document.parse (redeclared.markup true 2)).isOk = false := by
  refine ⟨parse_redeclared, by decide +kernel, by decide +kernel, by decide +kernel, ?_,
    by decide +kernel⟩
  intro hall
  have hmem : (({ name := "x", qualifier := some "p", namespaceUri := some "u" } : Element), [[], []])
      ∈ Outline.allTags [] (redeclared.outline true 2) := by decide +kernel
  obtain ⟨u, -, hbound⟩ := (hall _ hmem).1 "p" rfl (by decide)
  simp [boundAs, declaredAs] at hbound

end MarkupQuery.Tree
