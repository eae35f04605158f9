import MarkupQuery.Page.Edit
import MarkupQuery.Proofs.Page.Reachable
import MarkupQuery.Proofs.Page.Runs
import MarkupQuery.Proofs.Tree.Atomicity

namespace MarkupQuery

namespace Tree.Document

variable {doc middle new : Document}

/-- What is left of a document when attributes were removed from it by their names. -/
structure Trimmed (doc new : Document) : Prop where
  size : new.size = doc.size
  attributes : ∃ gone : NodeId → String → Bool, ∀ id,
    new.attributes id = (doc.attributes id).filter fun a => !gone id a.qualifiedName

namespace Trimmed

theorem of_attributes_eq (hs : new.size = doc.size)
    (ha : ∀ id, new.attributes id = doc.attributes id) : Trimmed doc new :=
  ⟨hs, fun _ _ => false, fun id => by simpa using ha id⟩

theorem refl (doc : Document) : Trimmed doc doc := of_attributes_eq rfl fun _ => rfl

theorem trans (h : Trimmed doc middle) (h' : Trimmed middle new) : Trimmed doc new := by
  obtain ⟨hsize, gone, hgone⟩ := h
  obtain ⟨hsize', gone', hgone'⟩ := h'
  refine ⟨hsize'.trans hsize, fun id name => gone' id name || gone id name, fun id => ?_⟩
  rw [hgone', hgone, List.filter_filter]
  simp only [Bool.not_or]

/-- Names tell which attributes are left, so an attribute that is still there was not removed. -/
theorem attributes_eq_filter (h : Trimmed doc new) (id : NodeId) :
    new.attributes id = (doc.attributes id).filter fun a => a ∈ new.attributes id := by
  obtain ⟨-, gone, hgone⟩ := h
  rw [hgone]
  refine List.filter_congr fun a ha => ?_
  simp [ha]

end Trimmed

theorem attributes_updateElement (doc : Document) (id x : NodeId) (f : Element → Element)
    (g : List Attribute → List Attribute) (hg : ∀ e, (f e).attributes = g e.attributes)
    (hnil : g [] = []) : (doc.updateElement id f).attributes x =
      if x = id then g (doc.attributes x) else doc.attributes x := by
  rw [attributes, element?_updateElement]
  split
  · rw [attributes]
    cases doc.element? x <;> simp [hg, hnil]
  · rfl

theorem trimmed_removeAttribute (doc : Document) (id : NodeId) (name : String) :
    Trimmed doc (doc.removeAttribute id name).1 := by
  refine ⟨size_updateElement .., fun x q => decide (x = id) && q == name, fun x => ?_⟩
  rw [removeAttribute, attributes_updateElement doc id x _
    (·.filter fun a => a.qualifiedName != name) (fun _ => rfl) rfl]
  split
  · rename_i hx
    simp [hx, bne]
  · rename_i hx
    simp [hx]

theorem payload_joinNeighbours (doc : Document) (parent : NodeId) (before after : Option NodeId)
    (x : NodeId) : (doc.joinNeighbours parent before after).payload x = doc.payload x := by
  unfold joinNeighbours
  dsimp only
  split <;> split <;> (rw [payload_update, payload_update] <;> exact fun _ => rfl)

/-- Unlinking a node changes no element. -/
theorem trimmed_detach (doc : Document) (id : NodeId) : Trimmed doc (doc.detach id) := by
  refine .of_attributes_eq (size_detach doc id) fun x => ?_
  have hpayload : (doc.detach id).payload x = doc.payload x := by
    unfold detach
    split
    · rfl
    · rw [payload_update (by simp), payload_joinNeighbours]
  rw [attributes, element?, hpayload]
  rfl

end Tree.Document

namespace Page

open MarkupQuery.Query (Site)
open MarkupQuery.Tree
open MarkupQuery.Tree.Document

theorem trimmed_removeAttributes (document : Document) (names : List (NodeId × String))
    (count : Nat) : Trimmed document (names.foldl (fun (document, count) (owner, name) =>
      let (document, found) := document.removeAttribute owner name
      (document, if found then count + 1 else count)) (document, count)).1 := by
  induction names generalizing document count with
  | nil => exact .refl document
  | cons name names ih => exact (trimmed_removeAttribute document _ _).trans (ih _ _)

theorem trimmed_detachAll (document : Document) (ids : List NodeId) (count : Nat) :
    Trimmed document (ids.foldl (fun (document, count) id =>
      if (document.parent id).isSome then (document.detach id, count + 1) else (document, count))
      (document, count)).1 := by
  induction ids generalizing document count with
  | nil => exact .refl document
  | cons id ids ih =>
    rw [List.foldl_cons]
    dsimp only
    split
    · exact (trimmed_detach document id).trans (ih _ _)
    · exact ih _ _

theorem trimmed_removeSites (document : Document) (sites : List Site) :
    Trimmed document (removeSites document sites).1 :=
  (trimmed_removeAttributes document _ 0).trans (trimmed_detachAll _ _ 0)

structure Trimmed (page later : Page) : Prop where
  serial : later.serial = page.serial
  document : Document.Trimmed page.document later.document

namespace Trimmed

variable {page middle later : Page}

theorem refl (page : Page) : Trimmed page page := ⟨rfl, .refl _⟩

theorem trans (h : Trimmed page middle) (h' : Trimmed middle later) : Trimmed page later :=
  ⟨h'.serial.trans h.serial, h.document.trans h'.document⟩

end Trimmed

namespace Action

variable {α β : Type}

def Trims (action : Action α) : Prop := ∀ page : Page, Trimmed page (action.after page)

theorem trims_pure (a : α) : Trims (pure a : Action α) := .refl

theorem trims_get {next : Page → Action α}
    (h : ∀ page, Trimmed page ((next page).after page)) : Trims (get >>= next) := h

theorem trims_bind {action : Action α} {next : α → Action β} (h : action.Trims)
    (hn : ∀ a, (next a).Trims) : (action >>= next).Trims := by
  intro page
  -- what the first action leaves counts even if it fails and `next` never runs
  have hmiddle := h page
  unfold after at hmiddle ⊢
  change Trimmed page
    ((ExceptT.bindCont next (StateT.run action page).1) (StateT.run action page).2).2
  generalize StateT.run action page = result at hmiddle ⊢
  obtain ⟨value, middle⟩ := result
  cases value with
  | error e => exact hmiddle
  | ok a => exact hmiddle.trans (hn a middle)

theorem trims_read (f : Page → Except Error α) : (read f).Trims := by
  refine trims_get fun page => ?_
  split <;> exact .refl page

end Action

open MarkupQuery.Page.Action

theorem trims_designated (context : Context) : (designated context).Trims := by
  cases context with
  | whole => exact trims_pure _
  | query text =>
    have hsearch : (search text .whole).Trims := trims_bind (trims_read _) fun _ => trims_read _
    exact trims_bind hsearch fun _ => trims_pure _
  | _ => exact trims_read _

theorem trims_remove (context : Context) : (remove context).Trims :=
  trims_bind (trims_designated context) fun handles => trims_get fun page =>
    ⟨rfl, trimmed_removeSites page.document (handles.map Handle.site)⟩

def removeAll (page : Page) (contexts : List Context) : Page :=
  contexts.foldl (fun page context => (remove context).after page) page

theorem trimmed_removeAll (page : Page) (contexts : List Context) :
    Trimmed page (page.removeAll contexts) := by
  induction contexts generalizing page with
  | nil => exact .refl page
  | cons context contexts ih => exact (trims_remove context page).trans (ih _)

section Items

variable {page before : Page} {h : Handle} {i : Nat} {a b : Attribute}

/-- A handle reads as an attribute if it answers with the name and the value of it. -/
def ReadsAs (page : Page) (h : Handle) (a : Attribute) : Prop :=
  page.name? h = .ok (some a.qualifiedName) ∧ page.value h = .ok a.value

/-- The name of an attribute is looked up at its place among the attributes of its owner. -/
theorem name?_eq (hs : h.serial = page.serial) (hc : page.document.contains h.site.id = true)
    (hi : h.site.index = some i) : page.name? h =
      .ok ((page.document.attributes h.site.id)[i]?.map Attribute.qualifiedName) := by
  have hcheck : page.check h = .ok h := by simp [check, owns, hs, hc]
  simp [name?, hcheck, Site.name?, Site.attribute?, hi, bind, Except.bind, pure, Except.pure]
  rfl

theorem value_eq (hs : h.serial = page.serial) (hc : page.document.contains h.site.id = true)
    (hi : h.site.index = some i) : page.value h =
      .ok (((page.document.attributes h.site.id)[i]?.map Attribute.value).getD "") := by
  have hcheck : page.check h = .ok h := by simp [check, owns, hs, hc]
  simp [value, hcheck, Site.value, Site.attribute?, hi, bind, Except.bind, pure, Except.pure]

theorem readsAs_of_getElem? (hs : h.serial = page.serial)
    (hc : page.document.contains h.site.id = true) (hi : h.site.index = some i)
    (ha : (page.document.attributes h.site.id)[i]? = some a) : page.ReadsAs h a := by
  rw [ReadsAs, name?_eq hs hc hi, value_eq hs hc hi, ha]
  exact ⟨rfl, rfl⟩

theorem contains_of_attribute {document : Document} {id : NodeId}
    (ha : (document.attributes id)[i]? = some a) : document.contains id = true := by
  by_contra hc
  have hout : document.size ≤ id := by simpa [contains] using hc
  simp [attributes, element?, payload, node_of_size_le hout, Payload.element?] at ha

/-- A list that is filtered keeps what is in front of an element that is kept, as far as that is kept
too. -/
theorem getElem?_filter {α : Type} {p : α → Bool} {as : List α} {a : α} (ha : as[i]? = some a)
    (hp : p a = true) : (as.filter p)[((as.take i).filter p).length]? = some a := by
  obtain ⟨hlt, hget⟩ := List.getElem?_eq_some_iff.mp ha
  have hsplit : as.filter p = (as.take i).filter p ++ a :: (as.drop (i + 1)).filter p := by
    conv_lhs => rw [← List.take_append_drop i as, List.drop_eq_getElem_cons hlt, hget]
    rw [List.filter_append, List.filter_cons_of_pos hp]
  rw [hsplit]
  simp

/-- What an item of a list of matches stands for after removals. An attribute that was not removed
is as many places further to the front as attributes in front of it were removed. So the item reads
as the attribute that it was taken for if none of those were removed, and, where names are distinct,
only then. -/
theorem item_after_removals {query : String} {context : Context} {found : Matches} {k : Nat}
    (hfound : StateT.run (search query context) before = (.ok found, page))
    (hitem : found.item? k = some h) (hi : h.site.index = some i)
    (ha : (page.document.attributes h.site.id)[i]? = some a) (contexts : List Context) :
    let later := page.removeAll contexts
    let taken := page.document.attributes h.site.id
    let left := later.document.attributes h.site.id
    page.ReadsAs h a ∧ left = taken.filter (· ∈ left) ∧ (a ∈ left →
      left[((taken.take i).filter (· ∈ left)).length]? = some a ∧
      ((∀ b ∈ taken.take i, b ∈ left) → later.ReadsAs h a) ∧
      ((taken.map Attribute.qualifiedName).Nodup →
        later.ReadsAs h a → ∀ b ∈ taken.take i, b ∈ left)) := by
  intro later taken left
  have htrimmed : Trimmed page later := trimmed_removeAll page contexts
  have hleft : left = taken.filter (· ∈ left) := htrimmed.document.attributes_eq_filter h.site.id
  obtain ⟨_, -, hexecute⟩ := run_search_eq_ok.mp hfound
  have hserial : h.serial = page.serial := by
    rw [← serial_of_execute hexecute]
    obtain ⟨_, -, rfl⟩ := Option.map_eq_some_iff.mp hitem
    rfl
  have hcontains := contains_of_attribute ha
  refine ⟨readsAs_of_getElem? hserial hcontains hi ha, hleft, fun hkept => ?_⟩
  have hplace : left[((taken.take i).filter (· ∈ left)).length]? = some a := by
    nth_rewrite 1 [hleft]
    exact getElem?_filter ha (by simpa using hkept)
  have hlength : i < taken.length := (List.getElem?_eq_some_iff.mp ha).1
  have hserial' : h.serial = later.serial := hserial.trans htrimmed.serial.symm
  have hcontains' : later.document.contains h.site.id = true := by
    rw [contains, htrimmed.document.size]
    exact hcontains
  refine ⟨hplace, fun hfront => ?_, fun hdistinct hreads => ?_⟩
  · have hall : (taken.take i).filter (· ∈ left) = taken.take i :=
      List.filter_eq_self.mpr fun b hb => by simpa using hfront b hb
    rw [hall, List.length_take_of_le hlength.le] at hplace
    exact readsAs_of_getElem? hserial' hcontains' hi hplace
  · have hnodup : (left.map Attribute.qualifiedName).Nodup := by
      rw [hleft]
      exact hdistinct.sublist (List.filter_sublist.map _)
    have hnamed : (left.map Attribute.qualifiedName)[i]? = some a.qualifiedName := by
      have hname := hreads.1
      rw [name?_eq hserial' hcontains' hi, Except.ok.injEq] at hname
      rw [List.getElem?_map]
      exact hname
    -- names are distinct, so the attribute is where the item looks
    have hindex : i = ((taken.take i).filter (· ∈ left)).length := by
      rw [← List.getElem?_inj (List.getElem?_eq_some_iff.mp hnamed).1 hnodup, hnamed,
        List.getElem?_map, hplace]
      rfl
    have hall : (taken.take i).filter (· ∈ left) = taken.take i :=
      List.filter_sublist.eq_of_length (by rw [← hindex, List.length_take_of_le hlength.le])
    intro c hc
    simpa using List.filter_eq_self.mp hall c hc

end Items

def attributePage : Page := .ofMarkup "<r a='1' b='2' c='3'/>"

/-- The second attribute is still found at its place when the third one was removed. -/
theorem item_after_removals_behind :
    StateT.run (search "//@b" .whole) attributePage = (.ok ⟨0, [⟨1, some 1⟩]⟩, attributePage) ∧
    (attributePage.removeAll [.query "//@c"]).document.attributes 1 =
      [{ name := "a", value := "1" }, { name := "b", value := "2" }] ∧
    (attributePage.removeAll [.query "//@c"]).ReadsAs ⟨0, ⟨1, some 1⟩⟩
      { name := "b", value := "2" } := by
  have hvalues : attributePage.execute "//@b" none = .ok ⟨0, [⟨1, some 1⟩]⟩ ∧
      attributePage.document.attributes 1 = [{ name := "a", value := "1" },
        { name := "b", value := "2" }, { name := "c", value := "3" }] ∧
      (attributePage.removeAll [.query "//@c"]).document.attributes 1 =
        [{ name := "a", value := "1" }, { name := "b", value := "2" }] := by decide +kernel
  obtain ⟨hexecute, htaken, hleft⟩ := hvalues
  have hfound : StateT.run (search "//@b" .whole) attributePage =
      (.ok ⟨0, [⟨1, some 1⟩]⟩, attributePage) := run_search_eq_ok.mpr ⟨none, rfl, hexecute⟩
  have ha : (attributePage.document.attributes 1)[1]? = some { name := "b", value := "2" } := by
    rw [htaken]
    rfl
  obtain ⟨-, -, hkept⟩ := item_after_removals (k := 0) (h := ⟨0, ⟨1, some 1⟩⟩) hfound rfl rfl ha
    [.query "//@c"]
  rw [hleft, htaken] at hkept
  exact ⟨hfound, hleft, (hkept (by decide)).2.1 (by decide)⟩

/-- The second attribute is not found at its place any more when the first one was removed, although
it is still there; the item reads as the third one. -/
theorem item_shifted : Page.parse 0 "<r a='1' b='2' c='3'/>" {} = .ok attributePage ∧
    StateT.run (search "//@b" .whole) attributePage = (.ok ⟨0, [⟨1, some 1⟩]⟩, attributePage) ∧
    attributePage.ReadsAs ⟨0, ⟨1, some 1⟩⟩ { name := "b", value := "2" } ∧
    (attributePage.removeAll [.query "//@a"]).document.attributes 1 =
      [{ name := "b", value := "2" }, { name := "c", value := "3" }] ∧
    (attributePage.removeAll [.query "//@a"]).name? ⟨0, ⟨1, some 1⟩⟩ = .ok (some "c") ∧
    (attributePage.removeAll [.query "//@a"]).value ⟨0, ⟨1, some 1⟩⟩ = .ok "3" := by
  have hexecute : attributePage.execute "//@b" none = .ok ⟨0, [⟨1, some 1⟩]⟩ := by decide +kernel
  exact ⟨parse_ofMarkup (by decide +kernel), run_search_eq_ok.mpr ⟨none, rfl, hexecute⟩,
    ⟨by decide +kernel, by decide +kernel⟩, by decide +kernel, by decide +kernel,
    by decide +kernel⟩

end Page

end MarkupQuery
