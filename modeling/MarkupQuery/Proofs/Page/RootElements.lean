import MarkupQuery.Proofs.Page.Failures
import MarkupQuery.Proofs.Tree.Layout

namespace MarkupQuery.Tree

variable {reference child old : NodeId} {ids : List NodeId}

theorem directlyBefore_perm (h : reference ∈ ids) :
    (directlyBefore reference child ids).Perm (child :: ids) := by
  induction ids with
  | nil => cases h
  | cons id ids ih =>
    rw [directlyBefore]
    split
    · exact .refl _
    · rename_i hne
      have hmem := (List.mem_cons.mp h).resolve_left (Ne.symm hne)
      exact ((ih hmem).cons id).trans (.swap child id ids)

theorem directlyAfter_perm (h : reference ∈ ids) :
    (directlyAfter reference child ids).Perm (child :: ids) := by
  induction ids with
  | nil => cases h
  | cons id ids ih =>
    rw [directlyAfter]
    split
    · exact .swap child id ids
    · rename_i hne
      have hmem := (List.mem_cons.mp h).resolve_left (Ne.symm hne)
      exact ((ih hmem).cons id).trans (.swap child id ids)

theorem cons_inPlaceOf_perm (h : old ∈ ids) :
    (old :: inPlaceOf old child ids).Perm (child :: ids) := by
  induction ids with
  | nil => cases h
  | cons id ids ih =>
    rw [inPlaceOf]
    split
    · rename_i he
      rw [he]
      exact .swap child old ids
    · rename_i hne
      have hmem := (List.mem_cons.mp h).resolve_left (Ne.symm hne)
      exact (List.Perm.swap id old _).trans (((ih hmem).cons id).trans (.swap child id ids))

namespace Document

def elementsBelow (doc : Document) (id : NodeId) : Nat := (doc.children id).countP doc.isElement

end Document

namespace Move

open Document

variable {doc new : Document} {move : Move}

/-- Among the children of the node that a move leads to, the moved node is added and the replaced one
is dropped. -/
theorem arrange_perm {l : Layout} {parent : NodeId} (ht : move.target? l = some parent)
    (hr : ∀ reference, move.reference? = some reference → reference ∈ ids) :
    (move.replaced?.toList ++ move.arrange ids).Perm (move.child :: ids) := by
  cases move with
  | append parent child => exact List.perm_append_singleton child ids
  | prepend => exact .refl _
  | insertBefore reference child => exact directlyBefore_perm (hr reference rfl)
  | insertAfter reference child => exact directlyAfter_perm (hr reference rfl)
  | replace old child => exact cons_inPlaceOf_perm (hr old rfl)
  | remove | detach => cases ht

/-- Whether a move puts its node directly below `parent`, and not in the place of an element. -/
def addsElement (doc : Document) (parent : NodeId) (move : Move) : Bool :=
  move.target? doc.layout == some parent && move.replaced?.all fun old => !doc.isElement old

/-- A node that stands by the moved one has the parent that this one gets. -/
theorem parent_reference {l : Layout} (h : move.reference? = some reference) :
    l.parent reference = move.target? l := by
  cases h : move <;> simp_all [Move.reference?, Move.target?]

/-- A free element that is put below a node is one more there, unless it replaces an element. -/
theorem Makes.elementsBelow_eq (h : Forest doc doc.children) (hm : move.Makes doc new)
    (hfree : doc.parent move.child = none) (he : doc.isElement move.child) (parent : NodeId) :
    new.elementsBelow parent = doc.elementsBelow parent + (move.addsElement doc parent).toNat := by
  have helement : new.isElement = doc.isElement :=
    funext fun id => congrArg Payload.isElement (hm.payload_eq id)
  have hout : (doc.children parent).erase move.child = doc.children parent :=
    h.erase_eq (by rw [hfree]; simp)
  rw [elementsBelow, elementsBelow, helement, hm.children_eq, hout, addsElement]
  by_cases ht : move.target? doc.layout = some parent
  · have hreference : ∀ reference, move.reference? = some reference →
        reference ∈ doc.children parent := by
      intro reference hr
      exact (h.mem_kids reference parent).mpr ((parent_reference hr).trans ht)
    have hcount := (arrange_perm ht hreference).countP_eq doc.isElement
    rw [List.countP_append, List.countP_cons_of_pos he] at hcount
    rw [if_pos ht, ht, beq_self_eq_true, Bool.true_and]
    cases hold : move.replaced? with
    | none => simpa [hold] using hcount
    | some old =>
      rw [hold, Option.toList_some, List.countP_singleton] at hcount
      cases hreplaced : doc.isElement old
      · simpa [hreplaced] using hcount
      · simpa [hreplaced, Nat.add_comm] using hcount
  · rw [if_neg ht, beq_eq_false_iff_ne.mpr ht, Bool.false_and, Bool.toNat_false, Nat.add_zero]

/-- A free node that is put by itself stays where it is. -/
theorem eq_of_reference (h : Forest doc doc.children) (hfree : doc.parent move.child = none)
    (hr : move.reference? = some move.child) (ho : move.change.make doc = .ok new) : new = doc := by
  cases move with
  | append | prepend | remove | detach => cases hr
  | insertBefore reference child =>
    obtain rfl : reference = child := Option.some.inj hr
    simpa [change, Change.make, Document.insertBefore, eq_comm] using ho
  | insertAfter reference child =>
    obtain rfl : reference = child := Option.some.inj hr
    have hnext : doc.next reference = none := (h.orphan reference hfree).2
    have hfree' : doc.parent reference = none := hfree
    simp [change, Change.make, Document.insertAfter, hnext, requireParent, hfree', bind, Except.bind] at ho
  | replace old child =>
    obtain rfl : old = child := Option.some.inj hr
    simpa [change, Change.make, Document.replace, eq_comm] using ho

/-- A move of a free element, wherever it leads to. -/
theorem elementsBelow_make (h : Forest doc doc.children) (hfree : doc.parent move.child = none)
    (he : doc.isElement move.child) (ho : move.change.make doc = .ok new) (parent : NodeId) :
    new.elementsBelow parent = doc.elementsBelow parent + (move.addsElement doc parent).toNat := by
  by_cases hr : move.reference? = some move.child
  · have htarget : move.target? doc.layout = none := (parent_reference hr).symm.trans hfree
    rw [eq_of_reference h hfree hr ho, addsElement, htarget]
    rfl
  · exact (makes h ho hr).elementsBelow_eq h hfree he parent

end Move

end MarkupQuery.Tree

/-!
How many elements stand directly below the document node of a page that new elements are put into.
Nothing keeps a second one out: the count goes up with every element that is put there, unless it
takes the place of another element.
-/

namespace MarkupQuery.Tree.Document

variable {doc new : Document} {id : NodeId}

/-- Trees beside that of a document put no element below its nodes. -/
theorem Extended.elementsBelow_eq (he : Extended doc new) (hd : Forest doc doc.children)
    (hid : id < doc.size) : new.elementsBelow id = doc.elementsBelow id := by
  rw [elementsBelow, elementsBelow, he.children_eq id hid]
  refine List.countP_congr fun child hc => ?_
  rw [isElement, isElement, he.grown.payload_eq child (hd.kids_lt hc)]

end MarkupQuery.Tree.Document

namespace MarkupQuery.Page

open MarkupQuery.Tree MarkupQuery.Tree.Document

variable {page later found : Page} {context : Context} {text : String} {h : Handle} {id new : NodeId}
  {placement : Placement}

def rootElements (page : Page) : Nat := page.document.elementsBelow root

/-- An element that was read from markup is beside the tree of the page. -/
theorem run_createElement_eq_ok (hp : page.Sound)
    (ho : StateT.run (createElement text) page = (.ok h, later)) :
    Extended page.document later.document ∧ later.document.parent h.site.id = none ∧
      later.document.isElement h.site.id := by
  rw [createElement, Action.run_get_bind] at ho
  cases hparse : Document.parseFragment text page.prefixes.entries with
  | error e => simp [hparse] at ho; cases ho
  | ok fragment =>
    have hfragment : Forest fragment fragment.children := (Sound.parseFragment hparse).forest
    obtain ⟨top, htop⟩ := exists_rootElement_of_parseFragment hparse
    have helement : fragment.isElement top := List.find?_some htop
    obtain ⟨document, himport, -, hfree, hholds⟩ :=
      hp.document.forest.exists_importFrom_element hfragment helement
    simp only [hparse, htop, himport] at ho
    obtain ⟨⟨⟩, rfl⟩ := Prod.mk.inj ho
    exact ⟨extended_importFrom hp.document.forest hfragment himport, hfree,
      hfragment.isElement_portable helement hholds⟩

theorem run_content_eq_ok (hp : page.Sound)
    (ho : StateT.run (content (.markup text)) page = (.ok id, later)) :
    Extended page.document later.document ∧ later.document.parent id = none ∧
      later.document.isElement id := by
  obtain ⟨h, middle, hread, ho⟩ := Action.run_bind_eq_ok.mp ho
  split at ho
  · cases ho
  · cases ho
    exact run_createElement_eq_ok hp hread

theorem run_place_eq_ok {move : Document → Except Tree.Error Document}
    (ho : StateT.run (place move id) page = (.ok h, later)) :
    ∃ document, move page.document = .ok document ∧ later = { page with document } := by
  obtain ⟨_, middle, hchange, ho⟩ := Action.run_bind_eq_ok.mp ho
  rw [Action.change, Action.run_get_bind] at hchange
  split at hchange
  · rename_i document hmove
    cases hchange
    cases ho
    exact ⟨document, hmove, rfl⟩
  · cases hchange

namespace Placement

/-- Finds the node that a context stands for and the node to put at it, in the order in which a
placement does. -/
def find (c : Content) (context : Context) : Placement → Action (NodeId × NodeId)
  | replace => do
    let h ← target context
    let new ← content c
    pure (h.site.id, new)
  | _ => do
    let new ← content c
    let h ← target context
    pure (h.site.id, new)

def move (id new : NodeId) : Placement → Move
  | append => .append id new
  | prepend => .prepend id new
  | appendSibling => .insertAfter id new
  | prependSibling => .insertBefore id new
  | replace => .replace id new

/-- Whether a placement puts what it inserts directly below the document node, and not in the place of
an element. -/
def addsRoot (c : Content) (context : Context) (page : Page) (placement : Placement) : Bool :=
  match StateT.run (placement.find c context) page with
  | (.ok (id, new), found) => (placement.move id new).addsElement found.document root
  | (.error _, _) => false

theorem child_move (id new : NodeId) (placement : Placement) :
    (placement.move id new).child = new := by
  cases placement <;> rfl

theorem run_eq (c : Content) (context : Context) (placement : Placement) :
    placement.run c context = (do
      let (id, new) ← placement.find c context
      place (placement.move id new).change.make new) := by
  cases placement <;>
    simp [run, find, move, Page.append, Page.prepend, Page.appendSibling, Page.prependSibling,
      Page.replace, Move.change, Change.make]

/-- When both nodes are found the new element is beside the tree of the page, which is as it was. -/
theorem find_eq_ok (hp : page.Sound) (hs : ∀ source ∈ context.sources, source.Sound)
    (ho : StateT.run (placement.find (.markup text) context) page = (.ok (id, new), found)) :
    found.Sound ∧ Extended page.document found.document ∧ found.document.parent new = none ∧
      found.document.isElement new := by
  have hread := keeps_content (c := .markup text) (by simp [Content.sources])
  have hresolved := keeps_target hs
  cases placement with
  | replace =>
    obtain ⟨h, middle, htarget, ho⟩ := Action.run_bind_eq_ok.mp ho
    obtain ⟨_, _, hcontent, ho⟩ := Action.run_bind_eq_ok.mp ho
    cases ho
    have hmiddle := hresolved.sound_later hp htarget
    have hbefore := (enlarged_of_finds (htarget ▸ finds_target hp hs)).document
    obtain ⟨hafter, hfree, helement⟩ := run_content_eq_ok hmiddle hcontent
    exact ⟨hread.sound_later hmiddle hcontent, hbefore.trans hafter, hfree, helement⟩
  | _ =>
    obtain ⟨_, middle, hcontent, ho⟩ := Action.run_bind_eq_ok.mp ho
    obtain ⟨h, _, htarget, ho⟩ := Action.run_bind_eq_ok.mp ho
    cases ho
    have hmiddle := hread.sound_later hp hcontent
    obtain ⟨hbefore, hfree, helement⟩ := run_content_eq_ok hp hcontent
    have hafter := (enlarged_of_finds (htarget ▸ finds_target hmiddle hs)).document
    have hlt := lt_size_of_isElement helement
    refine ⟨hresolved.sound_later hmiddle htarget, hbefore.trans hafter, ?_, ?_⟩
    · rw [hafter.grown.parent_eq _ hlt, hfree]
    · rw [isElement, hafter.grown.payload_eq _ hlt]
      exact helement

/-- A placement that succeeds keeps the number of root elements, unless it adds one. -/
theorem rootElements_run (hp : page.Sound) (hs : ∀ source ∈ context.sources, source.Sound)
    (ho : StateT.run (placement.run (.markup text) context) page = (.ok h, later)) :
    later.Sound ∧ later.rootElements =
      page.rootElements + (placement.addsRoot (.markup text) context page).toNat := by
  rw [run_eq] at ho
  obtain ⟨⟨id, new⟩, found, hfind, ho⟩ := Action.run_bind_eq_ok.mp ho
  obtain ⟨hfound, hextended, hfree, helement⟩ := find_eq_ok hp hs hfind
  obtain ⟨document, hmake, rfl⟩ := run_place_eq_ok ho
  have hmoved := hfound.document.move (placement.move id new) hmake
  have hf := hfound.document.forest
  rw [← child_move id new placement] at hfree helement
  refine ⟨⟨hmoved, hfound.prefixes⟩, ?_⟩
  calc document.elementsBelow root
      = found.document.elementsBelow root +
          ((placement.move id new).addsElement found.document root).toNat :=
        Move.elementsBelow_make hf hfree helement hmake root
    _ = page.rootElements + (placement.addsRoot (.markup text) context page).toNat := by
        rw [hextended.elementsBelow_eq hp.document.forest hp.document.forest.root_lt, addsRoot, hfind]
        rfl

end Placement

/-- Runs of placements of elements that are read from markup, all of which succeed. The number counts
those that add a root element. -/
inductive Placed : Page → Page → Nat → Prop
  | none (page : Page) : Placed page page 0
  | place {page middle later : Page} {placement : Placement} {text : String} {context : Context}
    {h : Handle} {count : Nat} (hs : ∀ source ∈ context.sources, source.Reachable)
    (ho : StateT.run (placement.run (.markup text) context) page = (.ok h, middle))
    (hrest : Placed middle later count) :
    Placed page later ((placement.addsRoot (.markup text) context page).toNat + count)

/-- Every element that a run puts directly below the document node counts, unless it replaces an
element. So a page that was read with one root element keeps a single one if no placement leads there,
and only then. -/
theorem rootElements_placed {serial : Nat} {markup : String} {options : Options} {count : Nat}
    (hp : Page.parse serial markup options = .ok page) (hr : Placed page later count) :
    later.rootElements = page.rootElements + count ∧
      (page.rootElements = 1 → (later.rootElements ≤ 1 ↔ count = 0)) := by
  have hsound : page.Sound := .parse hp
  have hcount : later.rootElements = page.rootElements + count := by
    clear hp
    induction hr with
    | none => rfl
    | place hs ho _ ih =>
      have hsources := fun source hm => (hs source hm).sound
      obtain ⟨hmiddle, hstep⟩ := Placement.rootElements_run hsound hsources ho
      rw [ih hmiddle, hstep, Nat.add_assoc]
  exact ⟨hcount, by omega⟩

def notePage : Page := .ofMarkup "<note/>"

def filledNote : Page := (Placement.prepend.run (.markup "<a/>") .whole).after notePage

def replacedNote : Page := (Placement.replace.run (.markup "<x/>") .whole).after filledNote

theorem rootElements_placed_replacedNote : Page.parse 0 "<note/>" {} = .ok notePage ∧
    Placed notePage replacedNote 0 ∧ notePage.rootElements = 1 ∧
    replacedNote.rootElements = 1 ∧ replacedNote.fullMarkup = "<x></x>" := by
  have hvalues : (Page.parse 0 "<note/>" {}).isOk = true ∧
      (StateT.run (Placement.prepend.run (.markup "<a/>") .whole) notePage).1 = .ok ⟨0, .node 2⟩ ∧
      (StateT.run (Placement.replace.run (.markup "<x/>") .whole) filledNote).1 =
        .ok ⟨0, .node 3⟩ ∧
      Placement.prepend.addsRoot (.markup "<a/>") .whole notePage = false ∧
      Placement.replace.addsRoot (.markup "<x/>") .whole filledNote = false ∧
      notePage.rootElements = 1 ∧ replacedNote.fullMarkup = "<x></x>" := by decide +kernel
  obtain ⟨hparse, hfirst, hsecond, hinside, hinstead, hone, hmarkup⟩ := hvalues
  have hplaced : Placed notePage replacedNote 0 := by
    have hlast := Placed.place (by simp [Context.sources]) (Action.run_eq_after hsecond)
      (.none replacedNote)
    have hboth := Placed.place (by simp [Context.sources]) (Action.run_eq_after hfirst) hlast
    rwa [hinside, hinstead] at hboth
  have hcount : replacedNote.rootElements = notePage.rootElements + 0 :=
    (rootElements_placed (parse_ofMarkup hparse) hplaced).1
  rw [Nat.add_zero, hone] at hcount
  exact ⟨parse_ofMarkup hparse, hplaced, hone, hcount, hmarkup⟩

def twoRooted : Page := (appendSibling (.markup "<x/>") .whole).after notePage

/-- An element is put beside the only root element, and the markup of the whole page cannot be read
any more. -/
theorem second_root_placed : Page.parse 0 "<note/>" {} = .ok notePage ∧
    StateT.run (appendSibling (.markup "<x/>") .whole) notePage =
      (.ok ⟨0, .node 2⟩, twoRooted) ∧
    notePage.rootElements = 1 ∧ twoRooted.rootElements = 2 ∧
    twoRooted.fullMarkup = "<note></note><x></x>" ∧
    (Document.parse twoRooted.fullMarkup).isOk = false := by
  have hvalues : (Page.parse 0 "<note/>" {}).isOk = true ∧
      (StateT.run (appendSibling (.markup "<x/>") .whole) notePage).1 = .ok ⟨0, .node 2⟩ ∧
      notePage.rootElements = 1 ∧ twoRooted.rootElements = 2 ∧
      twoRooted.fullMarkup = "<note></note><x></x>" := by decide +kernel
  obtain ⟨hparse, hrun, hbefore, hafter, hmarkup⟩ := hvalues
  refine ⟨parse_ofMarkup hparse, Action.run_eq_after hrun, hbefore, hafter, hmarkup, ?_⟩
  rw [hmarkup]
  decide +kernel

end MarkupQuery.Page
