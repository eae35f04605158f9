import MarkupQuery.Proofs.Tree.Fragments
import MarkupQuery.Proofs.Tree.TakenOut

namespace MarkupQuery.Tree

open MarkupQuery.Xml

variable {fragment : String} {hints : List (String × String)}

section Holder

/-- Where nothing is in force around an element, what it declares is in force in it. -/
theorem Subtree.ScopedIn.inside {e : Element} {children : List Subtree}
    (h : (Subtree.mk (.element e) children).ScopedIn []) :
    ∀ tree ∈ children, tree.ScopedIn e.declarations := by
  cases h with
  | @element _ inner _ _ he ht =>
    have hinner : e.declarations = inner := by simpa using he.declarations
    exact hinner ▸ ht
  | leaf => exact List.forall_mem_nil _

namespace Forest

open Document

/-- An element whose parent declares no default namespace, and is itself below the document node,
has none in force around it. -/
theorem inheritsDefault_below {doc : Document} (h : Forest doc doc.children) {id parent : NodeId}
    (hp : doc.parent id = some parent) (hroot : doc.parent parent = some root)
    (hd : ∀ d ∈ doc.declarations parent, d.qualifier.isSome) : doc.inheritsDefault id = false := by
  have hscope : doc.inScope parent = extendScope [] (doc.declarations parent) := by
    have hnone : doc.declarations root = [] := by
      rw [declarations, Document.element?, h.root_payload]
      rfl
    rw [inScope, h.ancestors_eq hroot, h.ancestors_top h.parent_root, List.foldl_cons,
      List.foldl_cons, List.foldl_nil, hnone, extendScope]
  have hfound : (doc.inScope parent).find? (fun d => d.qualifier.isNone) = none := by
    refine List.find?_eq_none.mpr fun d hmem => ?_
    rw [hscope] at hmem
    have hdeclared := (IsScope.mem_extendScope hmem).resolve_left List.not_mem_nil
    simp [Option.isSome_iff_ne_none.mp (hd d hdeclared)]
  rw [inheritsDefault, hp]
  simp [hfound]

end Forest

namespace Subtree

theorem isElement_yielding (known around : List Declaration) (tree : Subtree) :
    (tree.yielding known around).payload.isElement = tree.payload.isElement := by
  obtain ⟨payload, children⟩ := tree
  exact Payload.isElement_mapElement _ _

theorem filter_isElement_yielding (known around : List Declaration) (trees : List Subtree) :
    ((trees.map (yielding known around)).filter fun tree => tree.payload.isElement) =
      (trees.filter fun tree => tree.payload.isElement).map (yielding known around) := by
  rw [List.filter_map]
  exact congrArg (List.map _) (List.filter_congr fun tree _ => isElement_yielding known around tree)

end Subtree

namespace Document

def hintDeclarations (hints : List (String × String)) : List Declaration :=
  (hints.filter fun hint => isHint hint.1).map fun hint =>
    ⟨some hint.1, String.ofList (normalizedValue hint.2.toList)⟩

theorem normalized_holderTag (hints : List (String × String)) :
    (holderTag hints).normalized = declaringTag holderName (hintDeclarations hints) := by
  simp [StartTag.normalized, holderTag, declaringTag, hintDeclarations, Written.normalized,
    Declaration.written]

theorem readable_holderTag (hn : ∀ hint ∈ hints, IsName hint.1)
    (hv : ∀ hint ∈ hints, ∀ c ∈ hint.2.toList, isChar c = true) : (holderTag hints).Readable where
  name := (legible_holderTag hn).1
  attributes := by
    intro w hw
    refine ⟨(legible_holderTag hn).2 w hw, ?_⟩
    obtain ⟨hint, hhint, rfl⟩ := List.mem_map.mp hw
    exact hv hint (List.mem_of_mem_filter hhint)
  ending := nofun

/-- What is read in a holder without hints is read alike in one with hints. -/
theorem exists_parse_wrapped {holder : Document} (hn : ∀ hint ∈ hints, IsName hint.1)
    (hv : ∀ hint ∈ hints, ∀ c ∈ hint.2.toList, isChar c = true)
    (hk : ArePrefixes (hintDeclarations hints)) (hp : parse (wrapped fragment []) = .ok holder) :
    ∃ children rest,
      let plain := Subtree.mk (.element { name := holderName }) children
      let hinted := Subtree.mk (.element
        { name := holderName, declarations := hintDeclarations hints })
          (children.map (Subtree.yielding (hintDeclarations hints) []))
      parse (wrapped fragment []) = .ok (ofSubtrees (plain :: rest)) ∧
        (∀ tree ∈ plain :: rest, tree.ScopedIn []) ∧
      parse (wrapped fragment hints) = .ok (ofSubtrees (hinted :: rest)) ∧
        ∀ tree ∈ hinted :: rest, tree.ScopedIn [] := by
  -- what is behind the tag of the holder does not depend on the hints
  have hread : ∀ {hints}, (∀ hint ∈ hints, IsName hint.1) →
      (∀ hint ∈ hints, ∀ c ∈ hint.2.toList, isChar c = true) →
      Xml.read? (wrapped fragment hints).toList = (behindStartTag? (behindHolder fragment)).map
        (.startTag (declaringTag holderName (hintDeclarations hints)) :: ·) := by
    intro hints hn hv
    rw [toList_wrapped, read?_readable (readable_holderTag hn hv) rfl, normalized_holderTag]
  have hplain := hread (List.forall_mem_nil _) (List.forall_mem_nil _)
  have hhinted := hread hn hv
  cases hbehind : behindStartTag? (behindHolder fragment) with
  | none =>
    rw [hbehind, Option.map_none] at hplain
    simp [parse, hplain] at hp
  | some events =>
    rw [hbehind, Option.map_some] at hplain hhinted
    cases htrees : assembled? (.startTag (declaringTag holderName []) :: events) with
    | none =>
      have hnone : assembled? (.startTag (declaringTag holderName (hintDeclarations [])) :: events) =
          none := htrees
      simp [parse, hplain, hnone] at hp
    | some trees =>
      obtain ⟨children, rest, rfl, hwider⟩ := assembled?_wider hk htrees
      refine ⟨children, rest, ?_, scoped_of_assembled (legible_of_read? hplain) htrees, ?_,
        scoped_of_assembled (legible_of_read? hhinted) hwider⟩
      · have hsome : assembled? (.startTag (declaringTag holderName (hintDeclarations [])) ::
          events) = _ := htrees
        rw [parse, hplain, Option.bind_some, hsome]
      · rw [parse, hhinted, Option.bind_some, hwider]

/-- Hints with a character that markup forbids make a fragment unreadable. -/
theorem parseFragment_unreadable (hn : ∀ hint ∈ hints, IsName hint.1)
    (hv : ∃ hint ∈ hints, isHint hint.1 ∧ ∃ c ∈ hint.2.toList, isChar c = false) :
    parseFragment fragment hints = .error .malformed := by
  obtain ⟨hname, hattributes⟩ := legible_holderTag hn
  have hforbidden : ¬ ∀ w ∈ (holderTag hints).attributes, ∀ c ∈ w.value.toList,
      isChar c = true := by
    obtain ⟨hint, hmem, hhint, c, hc, hbad⟩ := hv
    intro hall
    have hw : Declaration.written ⟨some hint.1, hint.2⟩ ∈ (holderTag hints).attributes :=
      List.mem_map.mpr ⟨hint, List.mem_filter.mpr ⟨hmem, hhint⟩, rfl⟩
    exact absurd (hall _ hw c hc) (by simp [hbad])
  have hread : Xml.read? (wrapped fragment hints).toList = none := by
    rw [toList_wrapped]
    exact read?_unreadable hname nofun hattributes hforbidden _
  simp [parseFragment, parse, hread, bind, Except.bind]

/-- A single tree is added below the document node of an empty document. -/
theorem append_graft_empty {tree : Subtree} (h : tree.Proper) :
    (empty.graft tree).1.append root (empty.graft tree).2 = .ok (ofSubtrees [tree]) := by
  have hplanted : empty.plantBelow root [tree] = .ok (empty.graftBelow root [tree]) :=
    Forest.empty.plantBelow_eq [tree] Forest.empty.root_lt rfl (fun _ => rfl) (by simpa using h)
  rw [plantBelow, Forest.empty.plant_eq h] at hplanted
  change ((empty.graft tree).1.append root (empty.graft tree).2 >>= pure) = _ at hplanted
  rwa [bind_pure] at hplanted

def ofLone : List Subtree → Except Error Document
  | [tree] => .ok (ofSubtrees [tree.portable])
  | trees => .error (.fragmentRoot trees.length)

theorem ofLone_eq_ok {trees : List Subtree} {doc : Document} :
    ofLone trees = .ok doc ↔ ∃ tree, trees = [tree] ∧ ofSubtrees [tree.portable] = doc := by
  match trees with
  | [] => simp [ofLone]
  | [tree] => simp [ofLone]
  | tree :: other :: rest => simp [ofLone]

/-- What a holder that declares nothing but prefixes has as its only element is the fragment, with the
declarations that it lacks. -/
theorem parseFragment_of_trees {e : Element} {children rest : List Subtree}
    (hp : parse (wrapped fragment hints) = .ok (ofSubtrees (.mk (.element e) children :: rest)))
    (ht : ∀ tree ∈ .mk (.element e) children :: rest, tree.Proper)
    (he : ∀ d ∈ e.declarations, d.qualifier.isSome) :
    parseFragment fragment hints =
      ofLone (children.filter fun tree => tree.payload.isElement) := by
  obtain ⟨kids, hk⟩ := Forest.exists_ofSubtrees ht
  have hf := hk.self
  obtain ⟨top, hroot, hparent, htop⟩ := Forest.rootElement?_ofSubtrees rfl ht
  unfold parseFragment
  simp only [hp, bind, Except.bind, hroot]
  generalize ofSubtrees (.mk (.element e) children :: rest) = holder at hf hroot hparent htop
  have hpayload : holder.payload top = .element e := by
    have hat := hf.subtreeAt_eq top
    rw [htop, Subtree.mk.injEq] at hat
    exact hat.1.symm
  have hchildren : (holder.children top).map holder.subtreeAt = children := by
    have hat := hf.subtreeAt_eq top
    rw [htop, Subtree.mk.injEq] at hat
    exact hat.2.symm
  have hfound : ((holder.children top).filter holder.isElement).map holder.subtreeAt =
      children.filter fun tree => tree.payload.isElement := by
    rw [← hchildren, List.filter_map]
    congr 1
    exact List.filter_congr fun id _ => (hf.isElement_subtreeAt id).symm
  rw [← hfound]
  split
  · rename_i element honly
    rw [honly, List.map_singleton]
    have hchild : element ∈ (holder.children top).filter holder.isElement := by simp [honly]
    obtain ⟨hmem, helement⟩ := List.mem_filter.mp hchild
    -- in the holder no default namespace is in force
    have hinherits : holder.inheritsDefault element = false := by
      refine hf.inheritsDefault_below ((hf.mem_kids element top).mp hmem) hparent ?_
      rw [declarations, element?_eq_some.mpr hpayload]
      exact he
    have hportable : holder.portableSubtree element = (holder.subtreeAt element).portable := by
      rw [portableSubtree, Subtree.portable, ← hf.undeclared_subtreeAt, hinherits]
    have himport := Forest.importTop_of_isElement helement
    have hproper := hf.proper_portableSubtree himport
    simp only [importFrom, himport, hportable, bind, Except.bind, pure, Except.pure]
    exact append_graft_empty (hportable ▸ hproper)
  · rename_i hother
    rcases helements : (holder.children top).filter holder.isElement with
      _ | ⟨element, _ | ⟨other, rest⟩⟩
    · rfl
    · exact absurd helements (hother element)
    · simp [ofLone]

end Document

end Holder

section Hints

/-- Prefixes that can be declared around a fragment, each with a namespace. -/
structure AreHints (hints : List (String × String)) : Prop where
  once : (hints.map Prod.fst).Nodup
  name : ∀ hint ∈ hints, IsName hint.1
  reserved : ∀ hint ∈ hints, hint.1 ≠ "xml" ∧ hint.1 ≠ "xmlns"
  uri : ∀ hint ∈ hints, hint.2 ≠ xmlNamespace ∧ hint.2 ≠ xmlnsNamespace

namespace AreHints

theorem isHint (h : AreHints hints) {hint : String × String} (hmem : hint ∈ hints) :
    Document.isHint hint.1 := by
  have hempty := (h.name hint hmem).ne_empty
  have hcolon := (h.name hint hmem).colon_not_mem
  obtain ⟨hxml, hxmlns⟩ := h.reserved hint hmem
  simp [Document.isHint, hempty, hxml, hxmlns, hcolon]

theorem arePrefixes (h : AreHints hints) : ArePrefixes (Document.hintDeclarations hints) := by
  have hread : ∀ {hint : String × String} {uri : String}, ' ' ∉ uri.toList → hint.2 ≠ uri →
      String.ofList (normalizedValue hint.2.toList) ≠ uri := by
    rintro hint uri hspace hne rfl
    rw [String.toList_ofList] at hspace
    rw [normalizedValue_of_spaceless hspace, String.ofList_toList] at hne
    exact hne rfl
  refine ⟨⟨?_, ?_⟩, ?_⟩
  · have honce : hints.Pairwise fun a b => a.1 ≠ b.1 := List.pairwise_map.mp h.once
    refine List.pairwise_map.mpr ((honce.filter _).imp fun hne _ heq => ?_)
    exact hne (Option.some.inj heq)
  · intro d hd
    obtain ⟨hint, hhint, rfl⟩ := List.mem_map.mp hd
    have hmem := List.mem_of_mem_filter hhint
    obtain ⟨hxml, hxmlns⟩ := h.uri hint hmem
    obtain ⟨hnotxml, -⟩ := h.reserved hint hmem
    refine ⟨?_, fun q hq => ?_⟩
    · simp [mayDeclare, hread (by decide) hxml, hread (by decide) hxmlns, hnotxml]
    · obtain rfl := Option.some.inj hq
      exact ⟨h.name hint hmem, hnotxml⟩
  · intro d hd
    obtain ⟨hint, -, rfl⟩ := List.mem_map.mp hd
    rfl

end AreHints

end Hints

namespace Document

/-- A fragment that can be read without hints can be read with hints that markup can hold, and is the
same but for declarations. It is the same in full if no element declares a hint again that is in force
around it. -/
theorem parseFragment_hints {plain : Document} (hh : AreHints hints)
    (hp : parseFragment fragment [] = .ok plain) :
    ((∃ hint ∈ hints, ∃ c ∈ hint.2.toList, isChar c = false) →
      parseFragment fragment hints = .error .malformed) ∧
    ((∀ hint ∈ hints, ∀ c ∈ hint.2.toList, isChar c = true) → ∃ hinted top,
      parseFragment fragment hints = .ok hinted ∧ plain.rootElement? = some top ∧
      ReadWithin (hintDeclarations hints) plain hinted top ∧
      ((∀ id ∈ plain.subtree top, ∀ d ∈ plain.declarations id,
        repeats (hintDeclarations hints) (plain.declaredAround id) d = false) → hinted = plain)) := by
  refine ⟨fun ⟨hint, hmem, hbad⟩ => parseFragment_unreadable hh.name
    ⟨hint, hmem, hh.isHint hmem, hbad⟩, fun hv => ?_⟩
  have hk := hh.arePrefixes
  obtain ⟨holder, hholder⟩ : ∃ holder, parse (wrapped fragment []) = .ok holder := by
    unfold parseFragment at hp
    cases hread : parse (wrapped fragment []) with
    | error e => simp [hread, bind, Except.bind] at hp
    | ok holder => exact ⟨holder, rfl⟩
  -- the same trees twice, once with what the hints already declare left out
  obtain ⟨children, rest, hplain, hscoped, hhinted, hscoped'⟩ :=
    exists_parse_wrapped hh.name hv hk hholder
  have hread := parseFragment_of_trees hplain (fun tree ht => (hscoped tree ht).proper)
    (List.forall_mem_nil _)
  have hread' := parseFragment_of_trees hhinted (fun tree ht => (hscoped' tree ht).proper) hk.qualifier
  obtain ⟨tree, honly, rfl⟩ := ofLone_eq_ok.mp (hread.symm.trans hp)
  rw [Subtree.filter_isElement_yielding, honly, List.map_singleton, ofLone] at hread'
  obtain ⟨hchild, helement⟩ := List.mem_filter.mp
    (honly ▸ List.mem_singleton_self tree : tree ∈ children.filter fun tree => tree.payload.isElement)
  obtain ⟨payload, trees⟩ := tree
  cases payload with
  | element e =>
    have hscope := (hscoped _ List.mem_cons_self).inside _ hchild
    have hproper := ((hscoped' _ List.mem_cons_self).inside _
      (List.mem_map.mpr ⟨_, hchild, rfl⟩)).proper
    obtain ⟨top, hroot, hstands⟩ := exists_standsAlone hscope.proper hproper rfl rfl
    refine ⟨_, top, hread', hroot, hstands.readWithin hk hscope, fun hnone => ?_⟩
    rw [hstands.eq_of_no_repeats hk hscope hnone]
  | _ => cases helement

def ofFragment (fragment : String) (hints : List (String × String)) : Document :=
  (parseFragment fragment hints).toOption.getD .empty

theorem parseFragment_ofFragment (h : (parseFragment fragment hints).isOk = true) :
    parseFragment fragment hints = .ok (ofFragment fragment hints) := by
  rw [ofFragment]
  cases hread : parseFragment fragment hints with
  | error e => simp [hread, Except.isOk, Except.toBool] at h
  | ok doc => rfl

def redeclaring : String := "<x xmlns:a='u' a:k=''><y xmlns:b='v'/></x>"

def letterHints : List (String × String) := [("a", "u"), ("b", "v")]

theorem isName_a : IsName "a" := ⟨rfl, fun c hc => List.all_eq_true.mp (by decide) c hc⟩

theorem isName_b : IsName "b" := ⟨rfl, fun c hc => List.all_eq_true.mp (by decide) c hc⟩

theorem areHints_letterHints : AreHints letterHints where
  once := by decide
  name := List.forall_mem_cons.mpr ⟨isName_a, List.forall_mem_singleton.mpr isName_b⟩
  reserved := by decide
  uri := by decide

theorem isChar_letterHints : ∀ hint ∈ letterHints, ∀ c ∈ hint.2.toList, isChar c = true := by
  have hall : letterHints.all (fun hint => hint.2.toList.all isChar) = true := by decide
  exact fun hint hhint => List.all_eq_true.mp (List.all_eq_true.mp hall hint hhint)

/-- The root element still declares the prefix that it uses, the element in it declares nothing. -/
theorem parseFragment_hints_redeclaring : AreHints letterHints ∧ ∃ plain hinted,
    parseFragment redeclaring [] = .ok plain ∧ parseFragment redeclaring letterHints = .ok hinted ∧
      plain.declarations 1 = [⟨some "a", "u"⟩] ∧ plain.declarations 2 = [⟨some "b", "v"⟩] ∧
      ⟨some "a", "u"⟩ ∈ hinted.declarations 1 ∧ hinted.declarations 2 = [] := by
  have hvalues : (parseFragment redeclaring []).isOk = true ∧
      (ofFragment redeclaring []).rootElement? = some 1 ∧
      (ofFragment redeclaring []).descendants 1 = [2] ∧
      (ofFragment redeclaring []).declarations 1 = [⟨some "a", "u"⟩] ∧
      (ofFragment redeclaring []).declarations 2 = [⟨some "b", "v"⟩] ∧
      (ofFragment redeclaring []).declaredAround 2 = [⟨some "a", "u"⟩] ∧
      ((ofFragment redeclaring []).element? 1).map Element.needed = some [⟨some "a", "u"⟩] := by
    decide +kernel
  obtain ⟨hok, hroot, hbelow, htop, hinner, haround, hneeded⟩ := hvalues
  have hread := parseFragment_ofFragment hok
  generalize ofFragment redeclaring [] = plain at hread hroot hbelow htop hinner haround hneeded
  obtain ⟨-, hhints⟩ := parseFragment_hints areHints_letterHints hread
  obtain ⟨hinted, top, hread', hroot', hyields, -⟩ := hhints isChar_letterHints
  obtain rfl := Option.some.inj (hroot.symm.trans hroot')
  obtain ⟨e, he, hneeded⟩ := Option.map_eq_some_iff.mp hneeded
  have hnone : hinted.declarations 2 = [] := by
    rw [hyields.below 2 (by simp [hbelow]), hinner, haround]
    decide +kernel
  refine ⟨areHints_letterHints, plain, hinted, hread, hread', htop, hinner, ?_, hnone⟩
  refine hyields.restored _ (by decide +kernel) ⟨1, List.mem_cons_self, e, he, by simp [hneeded]⟩ ?_
  rw [hbelow]
  simp [hnone]

/-- A hint that the root element declares itself, and that no name relies on, is not declared. -/
theorem parseFragment_hints_unused : AreHints [("a", "u")] ∧ ∃ plain hinted,
    parseFragment "<x xmlns:a='u'/>" [] = .ok plain ∧
      parseFragment "<x xmlns:a='u'/>" [("a", "u")] = .ok hinted ∧
      plain.rootElement? = some 1 ∧ plain.declarations 1 = [⟨some "a", "u"⟩] ∧
      hinted.rootElement? = some 1 ∧ hinted.declarations 1 = [] := by
  have hvalues : (parseFragment "<x xmlns:a='u'/>" []).isOk = true ∧
      (parseFragment "<x xmlns:a='u'/>" [("a", "u")]).isOk = true ∧
      (ofFragment "<x xmlns:a='u'/>" []).rootElement? = some 1 ∧
      (ofFragment "<x xmlns:a='u'/>" []).declarations 1 = [⟨some "a", "u"⟩] ∧
      (ofFragment "<x xmlns:a='u'/>" [("a", "u")]).rootElement? = some 1 ∧
      (ofFragment "<x xmlns:a='u'/>" [("a", "u")]).declarations 1 = [] := by
    decide +kernel
  obtain ⟨hok, hok', hvalues⟩ := hvalues
  refine ⟨?_, _, _, parseFragment_ofFragment hok, parseFragment_ofFragment hok', hvalues⟩
  exact { once := by decide, name := List.forall_mem_singleton.mpr isName_a,
          reserved := by decide, uri := by decide }

end Document

end MarkupQuery.Tree
