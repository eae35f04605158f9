import MarkupQuery.Proofs.Page.Merging
import MarkupQuery.Proofs.Page.TableHistory
import MarkupQuery.Proofs.Tree.Plain

namespace MarkupQuery

open MarkupQuery.Tree MarkupQuery.Tree.Document MarkupQuery.Xml
open MarkupQuery.PrefixTable (lookup_of_mem lookup_cons_pair mem_map_fst_iff)

namespace Json

variable {members : Members} {key p : String} {value item : Json} {items : List Json}
  {named : List (String × Json)}

mutual

def objects : Json → Nat
  | object members => membersObjects members + 1
  | array items => itemsObjects items
  | _ => 0

def itemsObjects : List Json → Nat
  | [] => 0
  | item :: rest => item.objects + itemsObjects rest

def membersObjects : List (String × Json) → Nat
  | [] => 0
  | (_, value) :: rest => value.objects + membersObjects rest

end

theorem itemsObjects_append (items more : List Json) :
    itemsObjects (items ++ more) = itemsObjects items + itemsObjects more := by
  induction items with
  | nil => simp [itemsObjects]
  | cons item items ih => simp [itemsObjects, ih, Nat.add_assoc]

theorem membersObjects_append (members more : Members) :
    membersObjects (members ++ more) = membersObjects members + membersObjects more := by
  induction members with
  | nil => simp [membersObjects]
  | cons member members ih => simp [membersObjects, ih, Nat.add_assoc]

theorem lookup_eq_none : members.lookup key = none ↔ key ∉ members.map Prod.fst := by
  rw [mem_map_fst_iff, Option.not_isSome_iff_eq_none]

/-- With different names a member is what is found under its name. -/
theorem mem_iff_lookup (h : (members.map Prod.fst).Nodup) :
    (key, value) ∈ members ↔ members.lookup key = some value := by
  refine ⟨lookup_of_mem h, fun hl => ?_⟩
  obtain ⟨before, after, rfl, -⟩ := List.lookup_eq_some_iff.mp hl
  simp

/-- A new member comes last. -/
theorem insert_of_new (h : key ∉ members.map Prod.fst) (value : Json) :
    insert key value members = members ++ [(key, value)] := by
  induction members with
  | nil => rfl
  | cons member rest ih =>
    obtain ⟨hfirst, hrest⟩ := not_or.mp (mt List.mem_cons.mpr h)
    rw [insert, if_neg (by simpa using Ne.symm hfirst), ih hrest, List.cons_append]

theorem foldl_insert (h : ((members ++ named).map Prod.fst).Nodup) :
    named.foldl (fun members entry => insert entry.1 entry.2 members) members =
      members ++ named := by
  induction named generalizing members with
  | nil => simp
  | cons entry rest ih =>
    have hnew : entry.1 ∉ members.map Prod.fst := by
      rw [List.map_append, List.nodup_append] at h
      exact fun hmem => h.2.2 _ hmem entry.1 (by simp) rfl
    rw [List.foldl_cons, insert_of_new hnew, ih (by simpa using h), List.append_assoc,
      List.singleton_append]

def arrayOf? (items : List Json) : Option Json := if items = [] then none else some (array items)

theorem arrayOf?_concat (items : List Json) (item : Json) :
    arrayOf? (items ++ [item]) = some (array (items ++ [item])) := if_neg (by simp)

theorem push_cons_of_ne {known : String} (h : known ≠ key) (item first : Json) (rest : Members) :
    push key item ((known, first) :: rest) = (known, first) :: push key item rest := by
  cases first <;> exact if_neg (by simpa using h)

theorem push_cons_array (key : String) (item : Json) (items : List Json) (rest : Members) :
    push key item ((key, array items) :: rest) = (key, array (items ++ [item])) :: rest :=
  if_pos (beq_self_eq_true key)

theorem lookup_push (h : members.lookup key = arrayOf? items) (item : Json) (p : String) :
    (push key item members).lookup p =
      if key = p then arrayOf? (items ++ [item]) else members.lookup p := by
  rw [arrayOf?_concat]
  induction members with
  | nil =>
    obtain rfl : items = [] := by
      by_contra hne
      simp [arrayOf?, hne] at h
    exact lookup_cons_pair key _ p []
  | cons member rest ih =>
    obtain ⟨known, first⟩ := member
    rw [lookup_cons_pair] at h
    by_cases hknown : known = key
    · subst hknown
      obtain ⟨-, rfl⟩ : items ≠ [] ∧ array items = first := by
        simpa [arrayOf?, eq_comm] using h
      rw [push_cons_array, lookup_cons_pair, lookup_cons_pair]
      split <;> rfl
    · rw [if_neg hknown] at h
      rw [push_cons_of_ne hknown, lookup_cons_pair, lookup_cons_pair, ih h]
      by_cases hp : known = p
      · rw [if_pos hp, if_pos hp, if_neg fun hkey => hknown (hp.trans hkey.symm)]
      · rw [if_neg hp, if_neg hp]

theorem map_fst_push (key : String) (item : Json) (members : Members) :
    (push key item members).map Prod.fst =
      if key ∈ members.map Prod.fst then members.map Prod.fst
      else members.map Prod.fst ++ [key] := by
  induction members with
  | nil => rfl
  | cons member rest ih =>
    obtain ⟨known, first⟩ := member
    by_cases hknown : known = key
    · subst hknown
      cases first <;> simp [push]
    · rw [push_cons_of_ne hknown, List.map_cons, ih]
      simp only [List.map_cons, List.mem_cons, Ne.symm hknown, false_or]
      split <;> rfl

theorem nodup_push (h : (members.map Prod.fst).Nodup) (key : String) (item : Json) :
    ((push key item members).map Prod.fst).Nodup := by
  rw [map_fst_push]
  split
  · exact h
  · rename_i hnew
    refine List.nodup_append.mpr ⟨h, List.nodup_singleton key, fun known hmem last hlast heq => ?_⟩
    exact hnew (List.mem_singleton.mp hlast ▸ heq ▸ hmem)

theorem membersObjects_push (h : members.lookup key = arrayOf? items) (item : Json) :
    membersObjects (push key item members) = membersObjects members + item.objects := by
  induction members with
  | nil => simp [push, membersObjects, objects, itemsObjects]
  | cons member rest ih =>
    obtain ⟨known, first⟩ := member
    rw [lookup_cons_pair] at h
    by_cases hknown : known = key
    · subst hknown
      obtain ⟨-, rfl⟩ : items ≠ [] ∧ array items = first := by
        simpa [arrayOf?, eq_comm] using h
      simp only [push_cons_array, membersObjects, objects, itemsObjects_append, itemsObjects]
      omega
    · rw [if_neg hknown] at h
      rw [push_cons_of_ne hknown, membersObjects, membersObjects, ih h,
        Nat.add_assoc]

/-- The members after some named items were added, each to the array under its name. -/
def pushAll (named : List (String × Json)) (members : Members) : Members :=
  named.foldl (fun members entry => push entry.1 entry.2 members) members

theorem pushAll_concat (named : List (String × Json)) (entry : String × Json) (members : Members) :
    pushAll (named ++ [entry]) members = push entry.1 entry.2 (pushAll named members) := by
  simp [pushAll]

def itemsNamed (key : String) (named : List (String × Json)) : List Json :=
  (named.filter fun entry => entry.1 == key).map Prod.snd

theorem itemsNamed_concat (key : String) (named : List (String × Json)) (entry : String × Json) :
    itemsNamed key (named ++ [entry]) =
      if entry.1 = key then itemsNamed key named ++ [entry.2] else itemsNamed key named := by
  by_cases hkey : entry.1 = key <;> simp [itemsNamed, hkey]

section PushAll

variable (h : ∀ entry ∈ named, entry.1 ∉ members.map Prod.fst)
include h

/-- Under names that no member had there are then the items of each name in their order. -/
theorem lookup_pushAll (p : String) :
    (pushAll named members).lookup p = (members.lookup p).or (arrayOf? (itemsNamed p named)) := by
  induction named using List.reverseRecOn generalizing p with
  | nil => simp [pushAll, itemsNamed, arrayOf?]
  | append_singleton named entry ih =>
    obtain ⟨hnamed, hentry⟩ := List.forall_mem_append.mp h
    have hnone := lookup_eq_none.mpr (hentry entry (List.mem_singleton_self entry))
    have hitems : (pushAll named members).lookup entry.1 = arrayOf? (itemsNamed entry.1 named) := by
      rw [ih hnamed, hnone, Option.none_or]
    rw [pushAll_concat, lookup_push hitems, itemsNamed_concat]
    split
    · rename_i hp
      rw [← hp, hnone, Option.none_or]
    · exact ih hnamed p

theorem membersObjects_pushAll :
    membersObjects (pushAll named members) =
      membersObjects members + membersObjects named := by
  induction named using List.reverseRecOn with
  | nil => rfl
  | append_singleton named entry ih =>
    obtain ⟨hnamed, hentry⟩ := List.forall_mem_append.mp h
    have hnone := lookup_eq_none.mpr (hentry entry (List.mem_singleton_self entry))
    have hitems : (pushAll named members).lookup entry.1 = arrayOf? (itemsNamed entry.1 named) := by
      rw [lookup_pushAll hnamed, hnone, Option.none_or]
    rw [pushAll_concat, membersObjects_push hitems, ih hnamed, membersObjects_append]
    simp [membersObjects, Nat.add_assoc]

end PushAll

theorem nodup_pushAll (h : (members.map Prod.fst).Nodup) (named : List (String × Json)) :
    ((pushAll named members).map Prod.fst).Nodup := by
  induction named using List.reverseRecOn with
  | nil => exact h
  | append_singleton named entry ih => exact pushAll_concat named entry members ▸ nodup_push ih _ _

/-- A member is one that was there before, or the array of all items with its name. -/
theorem mem_pushAll (hd : (members.map Prod.fst).Nodup)
    (h : ∀ entry ∈ named, entry.1 ∉ members.map Prod.fst) :
    (key, value) ∈ pushAll named members ↔ (key, value) ∈ members ∨
      itemsNamed key named ≠ [] ∧ value = array (itemsNamed key named) := by
  rw [mem_iff_lookup (nodup_pushAll hd named), lookup_pushAll h, mem_iff_lookup hd]
  by_cases hitems : itemsNamed key named = []
  · simp [arrayOf?, hitems]
  · obtain ⟨entry, hentry⟩ := List.exists_mem_of_ne_nil _ (mt List.map_eq_nil_iff.mpr hitems)
    obtain ⟨hmem, hkey⟩ := List.mem_filter.mp hentry
    rw [lookup_eq_none.mpr (beq_iff_eq.mp hkey ▸ h entry hmem)]
    simp [arrayOf?, hitems, eq_comm]

end Json

namespace Page

open Json

variable {page : Page} {raw : RawMarkup} {kids : NodeId → List NodeId} {id child : NodeId}
  {key : String} {value : Json} {members : Members} {depth : Nat}

theorem isSome_qualifiedName? (document : Document) (id : NodeId) :
    (document.qualifiedName? id).isSome = document.isElement id := Option.isSome_map

def childrenNamed (document : Document) (id : NodeId) (name : String) : List NodeId :=
  (document.children id).filter fun child => document.qualifiedName? child == some name

def namedForms (document : Document) (form : NodeId → Json) (id : NodeId) : List (String × Json) :=
  (document.children id).filterMap fun child =>
    (document.qualifiedName? child).map fun name => (name, form child)

theorem addChildren_eq (page : Page) (form : NodeId → Json) (id : NodeId) (members : Members) :
    page.addChildren form id members = pushAll (namedForms page.document form id) members := by
  rw [addChildren, pushAll, namedForms, List.foldl_filterMap]
  congr 1
  funext members child
  cases page.document.qualifiedName? child <;> rfl

theorem itemsNamed_namedForms (document : Document) (form : NodeId → Json) (id : NodeId)
    (name : String) :
    itemsNamed name (namedForms document form id) = (childrenNamed document id name).map form := by
  unfold itemsNamed namedForms childrenNamed
  induction document.children id with
  | nil => rfl
  | cons child rest ih =>
    cases hname : document.qualifiedName? child with
    | none => simpa [hname] using ih
    | some known => by_cases hknown : known = name <;> simpa [hname, hknown] using ih

theorem attributeEntries (page : Page) (id : NodeId) (members : Members) :
    page.addAttributes id members = ((page.document.attributes id).map fun a =>
      ("@" ++ a.qualifiedName, Json.text a.value)).foldl
        (fun members entry => insert entry.1 entry.2 members) members := by
  rw [addAttributes, List.foldl_map]

/-- What is counted of the forms can be counted of the children, where those without a name have
none. -/
theorem membersObjects_namedForms {document : Document} {form : NodeId → Json}
    {walk : NodeId → List NodeId} {p : NodeId → Bool}
    (hsome : ∀ child ∈ document.children id, ∀ name ∈ document.qualifiedName? child,
      (form child).objects = (walk child).countP p)
    (hnone : ∀ child ∈ document.children id, document.qualifiedName? child = none →
      (walk child).countP p = 0) :
    membersObjects (namedForms document form id) =
      ((document.children id).flatMap walk).countP p := by
  unfold namedForms
  generalize document.children id = ids at hsome hnone
  induction ids with
  | nil => rfl
  | cons child rest ih =>
    obtain ⟨hsome, hsomes⟩ := List.forall_mem_cons.mp hsome
    obtain ⟨hnone, hnones⟩ := List.forall_mem_cons.mp hnone
    specialize ih hsomes hnones
    cases hname : document.qualifiedName? child with
    | none => simp [hname, ih, hnone hname]
    | some name => simp [membersObjects, hname, ih, hsome name hname]

/-- Levels below the last element of a branch do not count. -/
theorem elementJsonUpTo_eq (h : Forest page.document kids) {depth' : Nat}
    (hd : page.document.size < depth + (page.document.ancestors id).length)
    (hd' : page.document.size < depth' + (page.document.ancestors id).length) :
    page.elementJsonUpTo raw depth id = page.elementJsonUpTo raw depth' id := by
  induction depth generalizing depth' id with
  | zero =>
    have hle := Forest.length_ancestors_le page.document id
    omega
  | succ depth ih =>
    have hle := Forest.length_ancestors_le page.document id
    obtain ⟨depth', rfl⟩ := Nat.exists_eq_succ_of_ne_zero (by omega : depth' ≠ 0)
    have hforms : namedForms page.document (page.elementJsonUpTo raw depth) id =
        namedForms page.document (page.elementJsonUpTo raw depth') id := by
      refine List.filterMap_congr fun child hc => ?_
      have hlength := h.length_ancestors_of_mem_kids (h.children_eq id ▸ hc)
      rw [ih (by omega) (by omega : _ < depth' + _)]
    rw [elementJsonUpTo, elementJsonUpTo, addChildren_eq, addChildren_eq, hforms]

/-- The form of an element is made of those of its child elements. -/
theorem elementJson_eq (h : Forest page.document kids) (raw : RawMarkup) (id : NodeId) :
    page.elementJson raw id = .object (
      let members := page.addAttributes id (page.rawMembers raw id)
      match onlyText? page.document id with
      | some content => insert "#text" (.text content) members
      | none => pushAll (namedForms page.document (page.elementJson raw) id) members) := by
  have hdeeper : page.elementJson raw id =
      page.elementJsonUpTo raw (page.document.size + 1 + 1) id :=
    elementJsonUpTo_eq h (by omega) (by omega)
  rw [hdeeper, elementJsonUpTo, addChildren_eq]
  unfold elementJson
  dsimp only
  cases onlyText? page.document id <;> rfl

theorem onlyText?_eq_some {document : Document} {content : String} :
    onlyText? document id = some content ↔
      (document.children id).map document.payload = [.text content] := by
  unfold onlyText?
  split
  · rename_i text htext
    simp [htext]
  · rename_i hother
    exact ⟨nofun, fun htext => absurd htext (hother content)⟩

def attributeMembers (document : Document) (id : NodeId) : Members :=
  (document.attributes id).map fun a => ("@" ++ a.qualifiedName, .text a.value)

theorem membersObjects_attributeMembers (document : Document) (id : NodeId) :
    membersObjects (attributeMembers document id) = 0 := by
  unfold attributeMembers
  induction document.attributes id with
  | nil => rfl
  | cons a rest ih => simpa [membersObjects, objects] using ih

theorem head_attributeMembers {document : Document}
    (h : key ∈ (attributeMembers document id).map Prod.fst) : key.toList.head? = some '@' := by
  rw [attributeMembers, List.map_map] at h
  obtain ⟨a, -, rfl⟩ := List.mem_map.mp h
  simp

theorem text_not_mem_attributeMembers (document : Document) (id : NodeId) :
    "#text" ∉ (attributeMembers document id).map Prod.fst := fun hmem =>
  absurd (head_attributeMembers hmem) (by decide)

/-- The members of an element: its attributes, a text that is its only child, and for each name of
child elements the forms of all of these. -/
inductive HasMember (page : Page) (id : NodeId) : String → Json → Prop
  | attribute {a : Attribute} (h : a ∈ page.document.attributes id) :
    HasMember page id ("@" ++ a.qualifiedName) (.text a.value)
  | text {content : String}
    (h : (page.document.children id).map page.document.payload = [.text content]) :
    HasMember page id "#text" (.text content)
  | children {name : String} (h : childrenNamed page.document id name ≠ []) :
    HasMember page id name
      (.array ((childrenNamed page.document id name).map (page.elementJson .omitted)))

theorem hasMember_iff : page.HasMember id key value ↔
    (key, value) ∈ attributeMembers page.document id ∨
    (∃ content, onlyText? page.document id = some content ∧ ("#text", .text content) = (key, value)) ∨
    childrenNamed page.document id key ≠ [] ∧
      value = .array ((childrenNamed page.document id key).map (page.elementJson .omitted)) := by
  refine ⟨?_, ?_⟩
  · rintro (hattribute | htext | hchildren)
    · exact .inl (List.mem_map.mpr ⟨_, hattribute, rfl⟩)
    · exact .inr (.inl ⟨_, onlyText?_eq_some.mpr htext, rfl⟩)
    · exact .inr (.inr ⟨hchildren, rfl⟩)
  · rintro (hattribute | ⟨content, htext, hpair⟩ | ⟨hchildren, rfl⟩)
    · obtain ⟨a, ha, hpair⟩ := List.mem_map.mp hattribute
      obtain ⟨rfl, rfl⟩ := Prod.mk.inj hpair
      exact .attribute ha
    · obtain ⟨rfl, rfl⟩ := Prod.mk.inj hpair
      exact .text (onlyText?_eq_some.mp htext)
    · exact .children hchildren

/-- Beside an only text there is no child element. -/
theorem childrenNamed_of_onlyText {document : Document} {content : String}
    (h : onlyText? document id = some content) (name : String) :
    childrenNamed document id name = [] := by
  obtain ⟨child, hchild, hpayload⟩ := List.map_eq_singleton_iff.mp (onlyText?_eq_some.mp h)
  simp [childrenNamed, hchild, Document.qualifiedName?, Document.element?, hpayload,
    Payload.element?]

/-- A child that is no element has nothing below it. -/
theorem subtree_of_not_isElement {document : Document} (hs : document.Sound)
    (hc : child ∈ document.children id) (hne : document.isElement child = false) :
    document.subtree child = [child] := by
  have h := hs.forest
  have hparent := (h.mem_kids child id).mp hc
  have hdocument : document.payload child ≠ .document := fun hd => by
    have hroot := hs.loneRoot child (h.kids_lt hc) hd
    rw [hroot, h.parent_root] at hparent
    cases hparent
  have hleaf : document.children child = [] := h.leaf child (by
    rw [Document.isElement] at hne
    cases hp : document.payload child with
    | document => exact absurd hp hdocument
    | element e => simp [hp, Payload.isElement, Payload.element?] at hne
    | _ => rfl)
  rw [h.subtree_eq, hleaf, List.flatMap_nil]

section Parsed

variable {serial : Nat} {markup name : String} {options : Options}
  (hp : Page.parse serial markup options = .ok page)
include hp

/-- The name of an element starts with a letter, an underscore or a colon. -/
theorem head_qualifiedName (hname : page.document.qualifiedName? id = some name) :
    ∃ c ∈ name.toList.head?, isNameStart c = true ∨ c = ':' := by
  obtain ⟨e, he, rfl⟩ := Option.map_eq_some_iff.mp hname
  have hevery : page.document.Every fun e => e.tagName.Legible :=
    every_of_parse hp fun he => he.legible_tagName
  obtain ⟨c, hc, hstart⟩ := head_chars (hevery id e (element?_eq_some.mp he)) []
  exact ⟨c, by simpa [Element.toList_qualifiedName] using hc, hstart⟩

theorem nodup_attributeMembers (id : NodeId) :
    ((attributeMembers page.document id).map Prod.fst).Nodup := by
  obtain ⟨hdistinct, scope, hscope, hattributes⟩ := attributes_of_parse hp id
  rw [attributeMembers, List.map_map, List.Nodup, List.pairwise_map]
  refine hdistinct.imp_of_mem fun ha hb hne hsame => hne ?_
  exact (hattributes _ ha).eq_of_qualifiedName (hattributes _ hb) hscope
    ((String.append_right_inj "@").mp hsame)

theorem addAttributes_eq (id : NodeId) :
    page.addAttributes id [] = attributeMembers page.document id := by
  rw [attributeEntries, foldl_insert]
  · rfl
  · exact nodup_attributeMembers hp id

/-- No child element is named like a member for an attribute. -/
theorem not_mem_attributeMembers (hname : page.document.qualifiedName? child = some name)
    (id : NodeId) : name ∉ (attributeMembers page.document id).map Prod.fst := by
  intro hmem
  obtain ⟨c, hc, hstart⟩ := head_qualifiedName hp hname
  obtain rfl : '@' = c := Option.some.inj ((head_attributeMembers hmem).symm.trans hc)
  exact absurd hstart (by decide)

theorem namedForms_fresh (form : NodeId → Json) (id : NodeId) :
    ∀ entry ∈ namedForms page.document form id,
      entry.1 ∉ (attributeMembers page.document id).map Prod.fst := by
  intro entry hentry
  obtain ⟨child, -, hchild⟩ := List.mem_filterMap.mp hentry
  obtain ⟨name, hname, rfl⟩ := Option.map_eq_some_iff.mp hchild
  exact not_mem_attributeMembers hp hname id

/-- The members of a text that is the only child, or of the child elements, come after those for
the attributes. -/
theorem elementJson_omitted (h : Forest page.document kids) (id : NodeId) :
    page.elementJson .omitted id = .object (match onlyText? page.document id with
      | some content => attributeMembers page.document id ++ [("#text", .text content)]
      | none => pushAll (namedForms page.document (page.elementJson .omitted) id)
          (attributeMembers page.document id)) := by
  rw [elementJson_eq h, rawMembers, addAttributes_eq hp]
  simp only [insert_of_new (text_not_mem_attributeMembers page.document id)]

theorem mem_elementJson (h : Forest page.document kids) (id : NodeId) :
    ∃ members, page.elementJson .omitted id = .object members ∧ (members.map Prod.fst).Nodup ∧
      ∀ key value, (key, value) ∈ members ↔ page.HasMember id key value := by
  have hattributes := nodup_attributeMembers hp id
  refine ⟨_, elementJson_omitted hp h id, ?_⟩
  cases htext : onlyText? page.document id with
  | some content =>
    refine ⟨?_, fun key value => ?_⟩
    · rw [List.map_append]
      refine List.nodup_append.mpr ⟨hattributes, List.nodup_singleton _, ?_⟩
      rintro key hkey _ hlast rfl
      obtain rfl := List.mem_singleton.mp hlast
      exact text_not_mem_attributeMembers page.document id hkey
    · simp [hasMember_iff, htext, childrenNamed_of_onlyText htext, eq_comm]
  | none =>
    refine ⟨nodup_pushAll hattributes _, fun key value => ?_⟩
    simp [mem_pushAll hattributes (namedForms_fresh hp _ id), hasMember_iff, htext, itemsNamed_namedForms]

/-- There are as many objects in the form of an element as elements in its subtree. -/
theorem objects_elementJson (hs : page.document.Sound) (id : NodeId) :
    (page.elementJson .omitted id).objects =
      (page.document.descendants id).countP page.document.isElement + 1 := by
  have h := hs.forest
  induction id using h.induction_below with
  | step id ih =>
    rw [elementJson_omitted hp h id, objects]
    congr 1
    cases htext : onlyText? page.document id with
    | some content =>
      obtain ⟨child, hchild, hpayload⟩ :=
        List.map_eq_singleton_iff.mp (onlyText?_eq_some.mp htext)
      have hne : page.document.isElement child = false := by
        rw [Document.isElement, hpayload]
        rfl
      have hbelow := subtree_of_not_isElement hs (hchild ▸ List.mem_singleton_self child) hne
      rw [membersObjects_append, membersObjects_attributeMembers, h.descendants_eq, hchild]
      simp [membersObjects, objects, hbelow, hne]
    | none =>
      rw [membersObjects_pushAll (namedForms_fresh hp _ id), membersObjects_attributeMembers,
        Nat.zero_add, h.descendants_eq]
      refine membersObjects_namedForms (fun child hc name hname => ?_) fun child hc hname => ?_
      · have helement : page.document.isElement child = true := by
          rw [← isSome_qualifiedName?, hname, Option.isSome_some]
        rw [ih child hc, Document.subtree, List.countP_cons_of_pos helement]
      · have hne : page.document.isElement child = false := by
          rw [← isSome_qualifiedName?, hname, Option.isSome_none]
        rw [subtree_of_not_isElement hs hc hne]
        simp [hne]

/-- The form of an element of a page from markup has just the members of the element, each under a
name of its own, with the child elements of one name in document order. Below it there are as many
objects as elements. -/
theorem elementJson_of_parse (id : NodeId) :
    ∃ members, page.elementJson .omitted id = .object members ∧
      (members.map Prod.fst).Nodup ∧
      (∀ key value, (key, value) ∈ members ↔ page.HasMember id key value) ∧
      (∀ name, (childrenNamed page.document id name).Sublist (page.document.descendants id)) ∧
      membersObjects members = (page.document.descendants id).countP page.document.isElement := by
  have hs := (Sound.parse hp).document
  have h := hs.forest
  obtain ⟨members, hform, hnames, hmembers⟩ := mem_elementJson hp h id
  refine ⟨members, hform, hnames, hmembers, fun name => ?_, ?_⟩
  · exact List.filter_sublist.trans (h.kids_sublist id)
  · have hobjects := objects_elementJson hp hs id
    rwa [hform, objects, Nat.add_right_cancel_iff] at hobjects

end Parsed

def letterMarkup : String :=
  "<letter id='n1'>for <to>Ann</to> and <to>Tove</to><body lang='en'><p/>Hello</body></letter>"

def letterPage : Page := .ofMarkup letterMarkup

/-- Both of them are under one name. -/
theorem elementJson_of_parse_letter : Page.parse 0 letterMarkup {} = .ok letterPage ∧
    childrenNamed letterPage.document 1 "to" = [3, 6] ∧
    ∃ members, letterPage.elementJson .omitted 1 = .object members ∧
      (members.map Prod.fst).Nodup ∧
      (∀ key value, (key, value) ∈ members ↔ letterPage.HasMember 1 key value) ∧
      (∀ name, (childrenNamed letterPage.document 1 name).Sublist
        (letterPage.document.descendants 1)) ∧
      membersObjects members =
        (letterPage.document.descendants 1).countP letterPage.document.isElement := by
  have hvalues : (Page.parse 0 letterMarkup {}).isOk = true ∧
      childrenNamed letterPage.document 1 "to" = [3, 6] := by decide +kernel
  obtain ⟨hparse, hnamed⟩ := hvalues
  exact ⟨parse_ofMarkup hparse, hnamed, elementJson_of_parse (parse_ofMarkup hparse) 1⟩

end Page

end MarkupQuery
