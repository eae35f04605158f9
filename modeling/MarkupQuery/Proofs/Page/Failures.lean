import MarkupQuery.Proofs.Page.Finding

namespace MarkupQuery.Page

open MarkupQuery.Tree MarkupQuery.Tree.Document

variable {page later : Page} {c : Content} {context : Context} {e : Error} {id : NodeId}

/-- What an edit has to find before it moves a node. -/
inductive Part where
  | content (c : Content)
  | context (context : Context)

namespace Part

def find : Part → Action NodeId
  | .content c => Page.content c
  | .context context => do
    let h ← target context
    pure h.site.id

def sources : Part → List Page
  | .content c => c.sources
  | .context context => context.sources

def registered (page : Page) : Part → PrefixTable
  | .content c => c.registered page
  | .context context => context.registered page

end Part

/-- The edits that put a content at a context. -/
inductive Placement where
  | append
  | prepend
  | appendSibling
  | prependSibling
  | replace

namespace Placement

def run (c : Content) (context : Context) : Placement → Action Handle
  | append => Page.append c context
  | prepend => Page.prepend c context
  | appendSibling => Page.appendSibling c context
  | prependSibling => Page.prependSibling c context
  | replace => Page.replace context c

def first (c : Content) (context : Context) : Placement → Part
  | replace => .context context
  | _ => .content c

def second (c : Content) (context : Context) : Placement → Part
  | replace => .content c
  | _ => .context context

/-- Every placement finds its two parts and then moves a node. -/
theorem exists_run_eq (placement : Placement) (c : Content) (context : Context) :
    ∃ (move : NodeId → NodeId → Document → Except Tree.Error Document)
      (new : NodeId → NodeId → NodeId), placement.run c context = (do
        let a ← (placement.first c context).find
        let b ← (placement.second c context).find
        place (move a b) (new a b)) := by
  cases placement with
  | append =>
    exact ⟨fun new id document => document.append id new, fun new _ => new,
      by simp [run, first, second, Part.find, Page.append]⟩
  | prepend =>
    exact ⟨fun new id document => document.prepend id new, fun new _ => new,
      by simp [run, first, second, Part.find, Page.prepend]⟩
  | appendSibling =>
    exact ⟨fun new id document => document.insertAfter id new, fun new _ => new,
      by simp [run, first, second, Part.find, Page.appendSibling]⟩
  | prependSibling =>
    exact ⟨fun new id document => document.insertBefore id new, fun new _ => new,
      by simp [run, first, second, Part.find, Page.prependSibling]⟩
  | replace =>
    exact ⟨fun id new document => document.replace id new, fun _ new => new,
      by simp [run, first, second, Part.find, Page.replace]⟩

end Placement

/-- A part that is not found leaves the page as it is. No copy is an attribute, so a content that is
refused for being one was on the page already. -/
theorem find_eq_error {part : Part} (hp : page.Sound) (hs : ∀ source ∈ part.sources, source.Sound)
    (ho : StateT.run part.find page = (.error e, later)) : later = page := by
  cases part with
  | content c =>
    have hfinds := finds_contentHandle hp hs
    rcases Action.run_bind_eq_error.mp ho with ho | ⟨h, middle, hfound, ho⟩
    · rw [ho] at hfinds
      cases hfinds
      rfl
    · rw [hfound] at hfinds
      cases hfinds with
      | present =>
        split at ho <;> cases ho
        rfl
      | copied => cases ho
  | context context =>
    have hfinds := finds_target hp hs
    rcases Action.run_bind_eq_error.mp ho with ho | ⟨h, middle, hfound, ho⟩
    · rw [ho] at hfinds
      cases hfinds
      rfl
    · cases ho

/-- A part that is found leaves the tree of the page as it is. -/
theorem enlarged_find {part : Part} (hp : page.Sound) (hs : ∀ source ∈ part.sources, source.Sound)
    (ho : StateT.run part.find page = (.ok id, later)) :
    Enlarged page later (part.registered page) := by
  cases part with
  | content c =>
    obtain ⟨h, middle, hfound, ho⟩ := Action.run_bind_eq_ok.mp ho
    have hfinds := hfound ▸ finds_contentHandle hp hs
    split at ho
    · cases ho
    · cases ho
      exact enlarged_of_finds hfinds
  | context context =>
    obtain ⟨h, middle, hfound, ho⟩ := Action.run_bind_eq_ok.mp ho
    cases ho
    exact enlarged_of_finds (hfound ▸ finds_target hp hs)

theorem keeps_find {part : Part} (hs : ∀ source ∈ part.sources, source.Sound) :
    part.find.Keeps := by
  cases part with
  | content c => exact keeps_content hs
  | context context => exact Action.keeps_bind (keeps_target hs) fun _ => Action.keeps_pure _

/-- A move that is refused leaves the page as it is. -/
theorem place_eq_error {move : Document → Except Tree.Error Document}
    (ho : StateT.run (place move id) page = (.error e, later)) : later = page := by
  rcases Action.run_bind_eq_error.mp ho with ho | ⟨_, middle, -, ho⟩
  · rw [Action.change, Action.run_get_bind] at ho
    split at ho
    · cases ho
    · cases ho
      rfl
  · cases ho

/-- Where the parts of a placement that failed were searched for, and what that left of the page. -/
theorem Placement.run_eq_error {placement : Placement} (hp : page.Sound)
    (hfirst : ∀ source ∈ (placement.first c context).sources, source.Sound)
    (hsecond : ∀ source ∈ (placement.second c context).sources, source.Sound)
    (ho : StateT.run (placement.run c context) page = (.error e, later)) :
    (StateT.run (placement.first c context).find page = (.error e, later) ∧ later = page) ∨
    ∃ a middle, StateT.run (placement.first c context).find page = (.ok a, middle) ∧
      Enlarged page middle ((placement.first c context).registered page) ∧
      ((StateT.run (placement.second c context).find middle = (.error e, later) ∧ later = middle) ∨
      ∃ b, StateT.run (placement.second c context).find middle = (.ok b, later) ∧
        Enlarged middle later ((placement.second c context).registered middle)) := by
  obtain ⟨move, new, hrun⟩ := placement.exists_run_eq c context
  rw [hrun] at ho
  rcases Action.run_bind_eq_error.mp ho with ho | ⟨a, middle, ha, ho⟩
  · exact .inl ⟨ho, find_eq_error hp hfirst ho⟩
  have hmiddle := (keeps_find hfirst).sound_later hp ha
  refine .inr ⟨a, middle, ha, enlarged_find hp hfirst ha, ?_⟩
  rcases Action.run_bind_eq_error.mp ho with ho | ⟨b, found, hb, ho⟩
  · exact .inl ⟨ho, find_eq_error hmiddle hsecond ho⟩
  · obtain rfl := place_eq_error ho
    exact .inr ⟨b, hb, enlarged_find hmiddle hsecond hb⟩

/-- A placement that fails leaves the tree of the page and the default namespace as they were, and
every node with its contents and its links. Of the prefixes that it uses from elsewhere, those of
the parts that were found by then are registered: none if the first part was not found, those of the
first one if the second was not, and those of both if the move was refused. -/
theorem Reachable.run_placement_error (h : page.Reachable) {placement : Placement}
    (hs : ∀ source ∈ c.sources ++ context.sources, source.Reachable)
    (ho : StateT.run (placement.run c context) page = (.error e, later)) :
    later.document.subtree root = page.document.subtree root ∧
    (∀ id, page.document.contains id → later.document.node id = page.document.node id) ∧
    later.prefixes.defaultNamespace = page.prefixes.defaultNamespace ∧
    let first := placement.first c context
    let second := placement.second c context
    ((StateT.run first.find page = (.error e, later) ∧ later = page) ∨
    ∃ a middle, StateT.run first.find page = (.ok a, middle) ∧
      middle.prefixes = page.prefixes.merge (first.registered page) ∧
      ((StateT.run second.find middle = (.error e, later) ∧ later = middle) ∨
      ∃ b, StateT.run second.find middle = (.ok b, later) ∧
        later.prefixes = middle.prefixes.merge (second.registered middle))) := by
  rw [List.forall_mem_append] at hs
  have hp := h.sound
  have hparts : (∀ source ∈ (placement.first c context).sources, source.Sound) ∧
      ∀ source ∈ (placement.second c context).sources, source.Sound := by
    have hc : ∀ source ∈ c.sources, source.Sound := fun source hm => (hs.1 source hm).sound
    have hcontext : ∀ source ∈ context.sources, source.Sound :=
      fun source hm => (hs.2 source hm).sound
    -- a replacement looks for the place first
    cases placement with
    | replace => exact ⟨hcontext, hc⟩
    | _ => exact ⟨hc, hcontext⟩
  obtain ⟨hfirst, hsecond⟩ := hparts
  have hstages := Placement.run_eq_error hp hfirst hsecond ho
  obtain ⟨hlater, hextended, hdefault⟩ : later.Sound ∧ Extended page.document later.document ∧
      later.prefixes.defaultNamespace = page.prefixes.defaultNamespace := by
    rcases hstages with ⟨-, rfl⟩ | ⟨a, middle, ha, hmiddle, ⟨-, rfl⟩ | ⟨b, hb, hfound⟩⟩
    · exact ⟨hp, .refl _, rfl⟩
    · exact ⟨(keeps_find hfirst).sound_later hp ha, hmiddle.document, hmiddle.defaultNamespace_eq⟩
    · exact ⟨(keeps_find hsecond).sound_later ((keeps_find hfirst).sound_later hp ha) hb,
        hmiddle.document.trans hfound.document,
        hfound.defaultNamespace_eq.trans hmiddle.defaultNamespace_eq⟩
  have hd := hp.document.forest
  have hn := hlater.document.forest
  refine ⟨hextended.subtree_eq hd hn hd.root_lt,
    fun id hid => hextended.node_eq hd hn (of_decide_eq_true hid), hdefault, ?_⟩
  refine hstages.imp_right fun ⟨a, middle, ha, hmiddle, hstage⟩ =>
    ⟨a, middle, ha, hmiddle.prefixes, ?_⟩
  exact hstage.imp_right fun ⟨b, hb, hfound⟩ => ⟨b, hb, hfound.prefixes⟩

def textPage : Page := .ofMarkup "<r xmlns:p='u'>t</r>"

def rebindingMarkup : String := "<p:x xmlns:p='v' xmlns:q='w'/>"

def rebound : Page := (append (.markup rebindingMarkup) (.query "//text()")).after textPage

/-- Both parts are found and the move is refused. The prefixes of the element are registered by then,
one of them in place of what it was bound to. -/
theorem run_placement_error_rebound : textPage.Reachable ∧
    StateT.run (Placement.append.run (.markup rebindingMarkup) (.query "//text()")) textPage =
      (.error (.tree (.hierarchy (.childless 2))), rebound) ∧
    textPage.prefixes = ⟨[("p", "u")], none⟩ ∧ rebound.prefixes = ⟨[("p", "v"), ("q", "w")], none⟩ ∧
    rebound.document.subtree root = textPage.document.subtree root ∧
    (∀ id, textPage.document.contains id →
      rebound.document.node id = textPage.document.node id) := by
  have hvalues : (Page.parse 0 "<r xmlns:p='u'>t</r>" {}).isOk = true ∧
      textPage.document.size ≤ 0xFFFFFFFF ∧ textPage.prefixes = ⟨[("p", "u")], none⟩ ∧
      (StateT.run (append (.markup rebindingMarkup) (.query "//text()")) textPage).1 =
        .error (.tree (.hierarchy (.childless 2))) ∧
      rebound.prefixes = ⟨[("p", "v"), ("q", "w")], none⟩ := by decide +kernel
  obtain ⟨hparse, hfits, hbefore, hfirst, hafter⟩ := hvalues
  have hreachable : textPage.Reachable := .parse (parse_ofMarkup hparse) hfits
  have hrun : StateT.run (Placement.append.run (.markup rebindingMarkup) (.query "//text()"))
      textPage = (.error (.tree (.hierarchy (.childless 2))), rebound) := Action.run_eq_after hfirst
  obtain ⟨hsubtree, hnodes, -⟩ :=
    hreachable.run_placement_error (by simp [Content.sources, Context.sources]) hrun
  exact ⟨hreachable, hrun, hbefore, hafter, hsubtree, hnodes⟩

def barePage : Page := .ofMarkup "<r/>"

def misplaced : Page :=
  (append (.markup "<p:x xmlns:p='u'/>") (.query "//missing")).after barePage

/-- The prefix of an element that was never put into the tree is registered. -/
theorem prefix_registered_misplaced : Page.parse 0 "<r/>" {} = .ok barePage ∧
    StateT.run (append (.markup "<p:x xmlns:p='u'/>") (.query "//missing")) barePage =
      (.error (.context (.noMatch "//missing")), misplaced) ∧
    barePage.prefixes = ⟨[], none⟩ ∧ misplaced.prefixes = ⟨[("p", "u")], none⟩ ∧
    misplaced.prefixes ≠ barePage.prefixes := by
  have hvalues : (Page.parse 0 "<r/>" {}).isOk = true ∧
      (StateT.run (append (.markup "<p:x xmlns:p='u'/>") (.query "//missing")) barePage).1 =
        .error (.context (.noMatch "//missing")) ∧
      barePage.prefixes = ⟨[], none⟩ ∧ misplaced.prefixes = ⟨[("p", "u")], none⟩ := by
    decide +kernel
  obtain ⟨hparse, hfirst, hbefore, hafter⟩ := hvalues
  refine ⟨parse_ofMarkup hparse, Action.run_eq_after hfirst, hbefore, hafter, ?_⟩
  rw [hbefore, hafter]
  decide

end MarkupQuery.Page
