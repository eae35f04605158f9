import MarkupQuery.Proofs.Text.Words
import MarkupQuery.Proofs.Xml.Tags
import MarkupQuery.Xml.Document

namespace MarkupQuery.Xml

open MarkupQuery.Text

structure IsData (content : String) : Prop where
  ne_nil : content.toList ≠ []
  chars : ∀ c ∈ content.toList, isChar c = true
  lines : '\r' ∉ content.toList

structure IsComment (content : String) : Prop where
  chars : ∀ c ∈ content.toList, isChar c = true
  fits : Fits "-->".toList content.toList
  dashes : contains content.toList ['-', '-'] = false
  last : content.toList.getLast? ≠ some '-'

structure IsInstruction (target : String) (data : Option String) : Prop where
  target : IsTarget target
  ne_nil : ∀ d ∈ data, d.toList ≠ []
  chars : ∀ d ∈ data, ∀ c ∈ d.toList, isChar c = true
  fits : ∀ d ∈ data, Fits "?>".toList d.toList
  starts : ∀ d ∈ data, ∀ c ∈ d.toList.head?, isSpace c = false

namespace Event

def chars : Event → List Char
  | .startTag tag => tag.chars
  | .endTag name => '<' :: '/' :: (name.chars ++ ['>'])
  | .text content => content.toList.flatMap escapeInContent
  | .comment content => "<!--".toList ++ content.toList ++ "-->".toList
  | .instruction target none => "<?".toList ++ target.toList ++ "?>".toList
  | .instruction target (some data) =>
    "<?".toList ++ target.toList ++ ' ' :: data.toList ++ "?>".toList

@[simp] theorem chars_startTag (tag : StartTag) : (startTag tag).chars = tag.chars := rfl

@[simp] theorem chars_endTag (name : QName) :
    (endTag name).chars = '<' :: '/' :: (name.chars ++ ['>']) := rfl

@[simp] theorem chars_text (content : String) :
    (text content).chars = content.toList.flatMap escapeInContent := rfl

@[simp] theorem chars_comment (content : String) :
    (comment content).chars = "<!--".toList ++ content.toList ++ "-->".toList := rfl

@[simp] theorem chars_bareInstruction (target : String) :
    (instruction target none).chars = "<?".toList ++ target.toList ++ "?>".toList := rfl

@[simp] theorem chars_instruction (target data : String) :
    (instruction target (some data)).chars =
      "<?".toList ++ target.toList ++ ' ' :: data.toList ++ "?>".toList := rfl

/-- An event that is read as it is written. The instruction `xml` is none where markup begins. -/
def Plain : Event → Prop
  | .startTag tag => tag.Plain
  | .endTag name => name.Legible
  | .text content => IsData content
  | .comment content => IsComment content
  | .instruction target data => IsInstruction target data ∧ target ≠ "xml"

def isText : Event → Bool
  | .text _ => true
  | _ => false

def isMisc : Event → Bool
  | .comment _ | .instruction _ _ => true
  | _ => false

end Event

/-- Events that end where the tag ends around which `level` more are open. -/
def Closes : Nat → List Event → Prop
  | _, [] => False
  | 0, .endTag _ :: rest => rest = []
  | level + 1, .endTag _ :: rest => Closes level rest
  | level, .startTag tag :: rest => Closes (if tag.ending = .content then level + 1 else level) rest
  | level, _ :: rest => Closes level rest

def Separated (events : List Event) : Prop :=
  events.IsChain fun a b => ¬ (a.isText = true ∧ b.isText = true)

variable {scope : Scope} {event : Event} {content target : String} {data : Option String}
  {rest : List Char}

theorem escapeInContent_mem {c x : Char} (hc : isChar c = true) (hx : x ∈ escapeInContent c) :
    isChar x = true ∧ x ≠ '<' ∧ x ≠ '>' := by
  have hall : (escapeInContent c).all (fun x => isChar x && (x != '<' && x != '>')) = true := by
    unfold escapeInContent
    split
    iterate 3 · rfl
    · simp_all
  simpa using List.all_eq_true.mp hall x hx

theorem escaped_mem {x : Char} (h : ∀ c ∈ content.toList, isChar c = true)
    (hx : x ∈ content.toList.flatMap escapeInContent) : isChar x = true ∧ x ≠ '<' ∧ x ≠ '>' := by
  obtain ⟨c, hc, hx⟩ := List.mem_flatMap.mp hx
  exact escapeInContent_mem (h c hc) hx

theorem characterData?_escaped {expand : Nat → String → Option (List Event × Nat)}
    (references : Nat) (h : IsData content) :
    characterData? expand false references (content.toList.flatMap escapeInContent) =
      some ([.text content], references) := by
  obtain ⟨pieces, hpieces, hgives⟩ := pieces?_escaped escaping_inContent content.toList
  have hchars : (content.toList.flatMap escapeInContent).all isChar = true :=
    List.all_eq_true.mpr fun x hx => (escaped_mem h.chars hx).1
  have hend : contains (content.toList.flatMap escapeInContent) "]]>".toList = false := by
    rw [Bool.eq_false_iff, ne_eq, contains_iff]
    exact fun hin => (escaped_mem h.chars (hin.subset (by decide : '>' ∈ "]]>".toList))).2.2 rfl
  have hflush : flush content.toList.reverse [] = [.text content.toList] := by
    rw [flush, List.reverse_reverse, if_neg (by simpa using h.ne_nil)]
  rw [characterData?, hchars, hend]
  simp only [Bool.not_true, Bool.false_or, Bool.false_eq_true, if_false, hpieces,
    Option.bind_eq_bind, Option.bind_some, chunks_of_gives hgives h.lines List.not_mem_nil,
    List.append_nil, hflush, chunkEvents, String.ofList_toList, Option.pure_def]

theorem comment?_chars (h : IsComment content) (rest : List Char) :
    comment? (content.toList ++ "-->".toList ++ rest) = some (.comment content, rest) := by
  simp only [comment?, upTo?_of_fits h.fits h.chars, Option.bind_eq_bind, Option.bind_some,
    h.dashes, Bool.false_or, String.ofList_toList]
  rw [if_neg (by simpa using h.last)]

/-- Only the target xml makes an instruction look like an XML declaration. -/
theorem not_declaration (h : IsTarget target) (hne : target ≠ "xml")
    (hr : ∀ c ∈ rest.head?, isNameChar c = false ∧ c ≠ ':') :
    "xml ".toList.isPrefixOf (target.toList ++ rest) = false := by
  rw [Bool.eq_false_iff, ne_eq, List.isPrefixOf_iff_prefix]
  rintro ⟨more, hmore⟩
  have hxml : IsTarget "xml" :=
    ⟨⟨'x', rfl, .inl rfl⟩, fun c hc => .inl (List.all_eq_true.mp (by decide) c hc)⟩
  have hread := name?_target h hr
  have hread' := name?_target hxml (show ∀ c ∈ (' ' :: more).head?, _ by simp; decide)
  rw [show "xml".toList ++ ' ' :: more = target.toList ++ rest from hmore, hread] at hread'
  exact hne (Prod.mk.inj (Option.some.inj hread')).1

theorem instruction?_chars (h : IsInstruction target data) (hne : target ≠ "xml")
    (rest : List Char) :
    ∃ inside, (Event.instruction target data).chars = '<' :: '?' :: inside ∧
      instruction? (inside ++ rest) = some (.instruction target data, rest) := by
  have hmark : ∀ s : List Char, skipSpace ('?' :: s) = '?' :: s := fun s =>
    skipSpace_of_head (by simp; decide)
  cases data with
  | none =>
    refine ⟨target.toList ++ "?>".toList, rfl, ?_⟩
    have hbehind : ∀ c ∈ ("?>".toList ++ rest).head?, isNameChar c = false ∧ c ≠ ':' := by
      simp
      decide
    have hnone : Fits "?>".toList [] := fun rest => by simp [cutAt]
    have hcut : upTo? "?>" ("?>".toList ++ rest) = some ([], rest) := by
      simpa using upTo?_of_fits hnone (by simp) rest
    rw [List.append_assoc, instruction?, not_declaration h.target hne hbehind]
    simp only [Bool.false_eq_true, if_false, name?_target h.target hbehind, Option.bind_eq_bind,
      Option.bind_some]
    rw [show skipSpace ("?>".toList ++ rest) = "?>".toList ++ rest from hmark _, hcut]
    rfl
  | some d =>
    refine ⟨target.toList ++ ' ' :: d.toList ++ "?>".toList, rfl, ?_⟩
    have hbehind : ∀ c ∈ (' ' :: (d.toList ++ "?>".toList ++ rest)).head?,
        isNameChar c = false ∧ c ≠ ':' := by
      simp
      decide
    have hskip : skipSpace (' ' :: (d.toList ++ "?>".toList ++ rest)) =
        d.toList ++ "?>".toList ++ rest := by
      refine skipSpace_of_head (s := d.toList ++ "?>".toList ++ rest) fun c hc => ?_
      obtain ⟨first, more, hd⟩ := List.exists_cons_of_ne_nil (h.ne_nil d rfl)
      refine h.starts d rfl c ?_
      rw [hd] at hc ⊢
      exact hc
    have hempty : d.toList.isEmpty = false := by simpa using h.ne_nil d rfl
    have hassoc : target.toList ++ ' ' :: d.toList ++ "?>".toList ++ rest =
        target.toList ++ ' ' :: (d.toList ++ "?>".toList ++ rest) := by simp
    rw [hassoc, instruction?, not_declaration h.target hne hbehind]
    simp only [Bool.false_eq_true, if_false, name?_target h.target hbehind, Option.bind_eq_bind,
      Option.bind_some, hskip, upTo?_of_fits (h.fits d rfl) (h.chars d rfl), hempty,
      String.ofList_toList]
    rfl

theorem marked?_chars (h : event.Plain) (hm : event.isMisc = true) (rest : List Char) :
    ∃ c inside, event.chars = '<' :: c :: inside ∧ (c = '!' ∨ c = '?') ∧
      marked? (c :: inside ++ rest) = some (event, rest) := by
  cases event with
  | startTag | endTag | text => cases hm
  | comment content =>
    refine ⟨'!', "--".toList ++ content.toList ++ "-->".toList, rfl, .inl rfl, ?_⟩
    have hread := comment?_chars h rest
    simpa [marked?, afterStart?] using hread
  | instruction target data =>
    obtain ⟨inside, hchars, hread⟩ := instruction?_chars h.1 h.2 rest
    exact ⟨'?', inside, hchars, .inr rfl, hread⟩

section Content

variable {expand : Nat → String → Option (List Event × Nat)} {fuel level references : Nat}
  {tagged : Bool}

attribute [local simp] contentUpTo

theorem contentUpTo_misc (h : event.Plain) (hm : event.isMisc = true) (rest : List Char) :
    contentUpTo scope expand (fuel + 1) level tagged references (event.chars ++ rest) =
      (contentUpTo scope expand fuel level tagged references rest).map
        fun (more, rest, references) => (event :: more, rest, references) := by
  obtain ⟨c, inside, hchars, hc, hread⟩ := marked?_chars h hm rest
  rw [hchars, List.cons_append]
  rcases hc with rfl | rfl
  all_goals
    rw [List.cons_append] at hread ⊢
    rw [contentUpTo]
    simp only [hread, Option.bind_eq_bind, Option.bind_some]
    cases contentUpTo scope expand fuel level tagged references rest <;> rfl

theorem contentUpTo_startTag (hn : scope.nested = false) {tag : StartTag} (h : tag.Plain)
    (rest : List Char) :
    contentUpTo scope expand (fuel + 1) level tagged references (tag.chars ++ rest) =
      (contentUpTo scope expand fuel (if tag.ending = .content then level + 1 else level) true
        references rest).map fun (more, rest, references) =>
          (.startTag tag :: more, rest, references) := by
  obtain ⟨written, hw⟩ : ∃ written, tag.name.chars ++ (tag.attributes.flatMap Written.chars ++
    (tag.ending.chars ++ rest)) = written := ⟨_, rfl⟩
  have hread := startTag?_chars hn references h rest
  obtain ⟨c, hc, hstart⟩ := head_chars h.name
    (tag.attributes.flatMap Written.chars ++ (tag.ending.chars ++ rest))
  have hchars : tag.chars ++ rest = '<' :: written := by simp [StartTag.chars, ← hw]
  rw [hw] at hread hc
  -- a name tells a start tag from what else begins with an angle bracket
  have hne : ∀ x tail, isNameStart x = false ∧ x ≠ ':' → written ≠ x :: tail := by
    rintro x tail hx rfl
    exact head_ne_of_starts hstart hx (Option.some.inj hc).symm
  rw [hchars, contentUpTo]
  · simp only [hread, Option.bind_eq_bind, Option.bind_some]
    cases contentUpTo scope expand fuel (if tag.ending = .content then level + 1 else level) true
      references rest <;> rfl
  · exact fun tail => hne '/' tail (by decide)
  · exact fun tail => hne '!' tail (by decide)
  · exact fun tail => hne '?' tail (by decide)

theorem contentUpTo_text (hn : scope.nested = false) (h : IsData content) (rest : List Char) :
    contentUpTo scope expand (fuel + 1) level tagged references
        ((Event.text content).chars ++ '<' :: rest) =
      (contentUpTo scope expand fuel level tagged references ('<' :: rest)).map
        fun (more, rest, references) => (.text content :: more, rest, references) := by
  have hne : (Event.text content).chars ≠ [] := by
    obtain ⟨c, s, hs⟩ := List.exists_cons_of_ne_nil h.ne_nil
    rcases escaping_inContent c with ⟨hc, -⟩ | ⟨name, -, hc⟩ <;> simp [hs, hc]
  obtain ⟨c, written, hw⟩ := List.exists_cons_of_ne_nil hne
  have hdata : ∀ x ∈ (Event.text content).chars, (x != '<') = true := fun x hx => by
    simpa using (escaped_mem h.chars hx).2.1
  have hend : ∀ x ∈ ('<' :: rest).head?, (x != '<') = false := by simp
  have htake := takeWhile_exact hdata hend
  have hdrop := dropWhile_exact hdata hend
  have hread : characterData? expand false references (Event.text content).chars =
      some ([.text content], references) := characterData?_escaped references h
  rw [hw] at htake hdrop hdata hread ⊢
  rw [List.cons_append] at htake hdrop ⊢
  rw [contentUpTo]
  · simp only [htake, hdrop, hn, hread, Option.bind_eq_bind, Option.bind_some]
    cases contentUpTo scope expand fuel level tagged references ('<' :: rest) <;> rfl
  · rintro rfl
    exact absurd (hdata '<' (by simp)) (by decide)

theorem chars_endTag (name : QName) (rest : List Char) :
    (Event.endTag name).chars ++ rest = '<' :: '/' :: (name.chars ++ '>' :: rest) := by
  simp

theorem contentUpTo_lastTag {name : QName} (h : name.Legible) (rest : List Char) :
    contentUpTo scope expand (fuel + 1) 0 true references ((Event.endTag name).chars ++ rest) =
      some ([.endTag name], rest, references) := by
  simp [contentUpTo, endTag?_chars h]

theorem contentUpTo_endTag {name : QName} (h : name.Legible) (rest : List Char) :
    contentUpTo scope expand (fuel + 1) (level + 1) true references
        ((Event.endTag name).chars ++ rest) =
      (contentUpTo scope expand fuel level true references rest).map
        fun (more, rest, references) => (.endTag name :: more, rest, references) := by
  simp only [chars_endTag, contentUpTo, endTag?_chars h, Bool.not_true, Bool.false_eq_true,
    if_false, Option.bind_eq_bind, Option.bind_some]
  cases contentUpTo scope expand fuel level true references rest <;> rfl

/-- Behind a text there is a tag, a comment or an instruction. -/
theorem exists_bracket (h : event.Plain) (ht : event.isText = false) (rest : List Char) :
    ∃ s, event.chars ++ rest = '<' :: s := by
  cases event with
  | startTag | endTag => exact ⟨_, rfl⟩
  | text => cases ht
  | comment => exact ⟨_, rfl⟩
  | instruction target data =>
    obtain ⟨inside, hchars, -⟩ := instruction?_chars h.1 h.2 rest
    exact ⟨_, by rw [hchars]; rfl⟩

theorem Closes.tail {events : List Event} (h : Closes level (event :: events))
    (he : event.isText = true ∨ event.isMisc = true) : Closes level events := by
  cases event <;> simp_all [Closes, Event.isText, Event.isMisc]

/-- Content is read up to the end tag that closes it. -/
theorem contentUpTo_chars (hn : scope.nested = false) {events : List Event}
    (h : ∀ event ∈ events, event.Plain) (hs : Separated events) (hc : Closes level events)
    (rest : List Char) (hf : events.length ≤ fuel) :
    contentUpTo scope expand fuel level true references
      (events.flatMap Event.chars ++ rest) = some (events, rest, references) := by
  induction events generalizing fuel level with
  | nil => cases level <;> cases hc
  | cons event events ih =>
    obtain ⟨fuel, rfl⟩ := Nat.exists_eq_add_of_lt hf
    obtain ⟨hevent, hrest⟩ := List.forall_mem_cons.mp h
    have hf' : events.length ≤ events.length + fuel := Nat.le_add_right _ _
    have hs' : Separated events := List.IsChain.of_cons hs
    rw [List.flatMap_cons, List.append_assoc]
    cases event with
    | startTag tag =>
      rw [Event.chars_startTag, contentUpTo_startTag hn hevent, ih hrest hs' hc hf']
      rfl
    | endTag name =>
      cases level with
      | zero =>
        obtain rfl : events = [] := hc
        exact contentUpTo_lastTag hevent rest
      | succ level =>
        rw [contentUpTo_endTag hevent, ih hrest hs' hc hf']
        rfl
    | text content =>
      cases events with
      | nil => cases level <;> cases hc
      | cons next events =>
        have hnext : next.isText = false := by
          simpa [Event.isText] using (List.isChain_cons_cons.mp hs).1
        -- a text is read up to a bracket, which the next event begins with
        obtain ⟨s, hbracket⟩ := exists_bracket (hrest next (by simp)) hnext
          (events.flatMap Event.chars ++ rest)
        have hread := ih hrest hs' (hc.tail (.inl rfl)) hf'
        rw [List.flatMap_cons, List.append_assoc, hbracket] at hread ⊢
        rw [contentUpTo_text hn hevent, hread]
        rfl
    | comment | instruction =>
      rw [contentUpTo_misc hevent rfl, ih hrest hs' (hc.tail (.inr rfl)) hf']
      rfl

end Content

def EndsMisc (rest : List Char) : Prop :=
  rest = [] ∨ ∃ c s, rest = '<' :: c :: s ∧ c ≠ '!' ∧ c ≠ '?'

theorem skipSpace_of_endsMisc (h : EndsMisc rest) : skipSpace rest = rest := by
  rcases h with rfl | ⟨c, s, rfl, -, -⟩
  · rfl
  · exact skipSpace_of_head (by simp; decide)

theorem miscUpTo_end (h : EndsMisc rest) (fuel : Nat) : miscUpTo fuel rest = some ([], rest) := by
  cases fuel with
  | zero => rfl
  | succ fuel =>
    rw [miscUpTo, skipSpace_of_endsMisc h]
    rcases h with rfl | ⟨c, s, rfl, hbang, hquestion⟩
    · rfl
    · simp [afterStart?, hbang.symm, hquestion.symm]

theorem miscUpTo_cons (h : event.Plain) (hm : event.isMisc = true) (rest : List Char)
    (fuel : Nat) : miscUpTo (fuel + 1) (event.chars ++ rest) =
      (miscUpTo fuel rest).map fun (more, rest) => (event :: more, rest) := by
  have hskip : ∀ s, skipSpace ('<' :: s) = '<' :: s := fun s => skipSpace_of_head (by simp; decide)
  cases event with
  | startTag | endTag | text => cases hm
  | comment content =>
    have hread := comment?_chars h rest
    have hchars : (Event.comment content).chars ++ rest =
        "<!--".toList ++ (content.toList ++ "-->".toList ++ rest) := by
      simp
    have hafter : ∀ s, afterStart? "<!--".toList ("<!--".toList ++ s) = some s := fun s => by
      simp [afterStart?]
    rw [hchars, miscUpTo, show skipSpace ("<!--".toList ++ _) = "<!--".toList ++ _ from hskip _]
    simp only [hafter, hread, Option.bind_eq_bind, Option.bind_some]
    cases miscUpTo fuel rest <;> rfl
  | instruction target data =>
    obtain ⟨inside, hchars, hread⟩ := instruction?_chars h.1 h.2 rest
    have hcomment : ∀ s, afterStart? "<!--".toList ('<' :: '?' :: s) = none := fun s => by
      simp [afterStart?]
    have hafter : ∀ s, afterStart? "<?".toList ('<' :: '?' :: s) = some s := fun s => by
      simp [afterStart?]
    rw [hchars, List.cons_append, List.cons_append, miscUpTo, hskip]
    simp only [hcomment, hafter, hread, Option.bind_eq_bind, Option.bind_some]
    cases miscUpTo fuel rest <;> rfl

theorem misc?_chars {events : List Event} (h : ∀ event ∈ events, event.Plain)
    (hm : ∀ event ∈ events, event.isMisc = true) (hr : EndsMisc rest) :
    misc? (events.flatMap Event.chars ++ rest) = some (events, rest) := by
  have hread : ∀ fuel, events.length ≤ fuel →
      miscUpTo fuel (events.flatMap Event.chars ++ rest) = some (events, rest) := by
    induction events with
    | nil => exact fun fuel _ => miscUpTo_end hr fuel
    | cons event events ih =>
      intro fuel hf
      obtain ⟨fuel, rfl⟩ := Nat.exists_eq_add_of_lt hf
      obtain ⟨hevent, hrest⟩ := List.forall_mem_cons.mp h
      obtain ⟨hmisc, hmore⟩ := List.forall_mem_cons.mp hm
      rw [List.flatMap_cons, List.append_assoc, miscUpTo_cons hevent hmisc,
        ih hrest hmore _ (Nat.le_add_right _ _)]
      rfl
  have hlength : events.length ≤ (events.flatMap Event.chars).length :=
    length_le_length_flatMap fun event he => by
      obtain ⟨c, inside, hchars, -⟩ := marked?_chars (h event he) (hm event he) []
      simp [hchars]
  refine hread _ ?_
  rw [List.length_append]
  omega

structure IsElement (tag : StartTag) (inside : List Event) : Prop where
  empty : tag.ending = .empty → inside = []
  content : tag.ending = .content → Closes 0 inside

theorem chars_ne_nil (h : event.Plain) : event.chars ≠ [] := by
  cases ht : event.isText with
  | false =>
    obtain ⟨s, hs⟩ := exists_bracket h ht []
    intro hnil
    simp [hnil] at hs
  | true =>
    cases event with
    | startTag | endTag | comment | instruction => cases ht
    | text content =>
      obtain ⟨c, s, hs⟩ := List.exists_cons_of_ne_nil h.ne_nil
      rcases escaping_inContent c with ⟨hc, -⟩ | ⟨name, -, hc⟩ <;> simp [hs, hc]

theorem element?_chars {tag : StartTag} {inside : List Event} (h : tag.Plain)
    (hi : ∀ event ∈ inside, event.Plain) (hs : Separated inside) (he : IsElement tag inside)
    (rest : List Char) :
    element? [] (tag.chars ++ (inside.flatMap Event.chars ++ rest)) =
      some (.startTag tag :: inside, rest) := by
  have hn : Scope.nested { entities := [] } = false := rfl
  have hchars : tag.chars ++ (inside.flatMap Event.chars ++ rest) =
      '<' :: (tag.name.chars ++ (tag.attributes.flatMap Written.chars ++ (tag.ending.chars ++
        (inside.flatMap Event.chars ++ rest)))) := by
    simp [StartTag.chars]
  have hlength : inside.length ≤ (inside.flatMap Event.chars ++ rest).length + 1 := by
    have hlong : inside.length ≤ (inside.flatMap Event.chars).length :=
      length_le_length_flatMap fun event he => chars_ne_nil (hi event he)
    rw [List.length_append]
    omega
  rw [hchars, element?]
  simp only [startTag?_chars hn 0 h, Option.bind_eq_bind, Option.bind_some]
  cases hending : tag.ending with
  | missing => exact absurd hending h.ending
  | empty =>
    rw [he.empty hending]
    rfl
  | content =>
    simp only [if_true, contentUpTo_chars hn hi hs (he.content hending) rest hlength,
      Option.bind_some]
    rfl

theorem endsMisc_startTag {tag : StartTag} (h : tag.name.Legible) (rest : List Char) :
    EndsMisc (tag.chars ++ rest) := by
  obtain ⟨c, hc, hstart⟩ := head_chars h
    (tag.attributes.flatMap Written.chars ++ tag.ending.chars ++ rest)
  obtain ⟨s, hs⟩ := List.head?_eq_some_iff.mp hc
  refine .inr ⟨c, s, ?_, head_ne_of_starts hstart (by decide), head_ne_of_starts hstart (by decide)⟩
  rw [← hs]
  simp [StartTag.chars]

/-- A comment or an instruction is not taken for an XML declaration. -/
theorem not_declaration_of_misc (h : event.Plain) (hm : event.isMisc = true) (rest : List Char) :
    "<?xml ".toList.isPrefixOf (event.chars ++ rest) = false := by
  cases event with
  | startTag | endTag | text => cases hm
  | comment content => rfl
  | instruction target data =>
    obtain ⟨inside, hchars, hread⟩ := instruction?_chars h.1 h.2 rest
    rw [hchars, Bool.eq_false_iff]
    intro hxml
    have hprefix : "xml ".toList.isPrefixOf (inside ++ rest) = true := by simpa using hxml
    rw [instruction?, if_pos hprefix] at hread
    cases hread

theorem not_declaration_of_endsMisc (h : EndsMisc rest) :
    "<?xml ".toList.isPrefixOf rest = false := by
  rcases h with rfl | ⟨c, s, rfl, -, hc⟩
  · rfl
  · rw [Bool.eq_false_iff]
    simp [hc.symm]

section Prolog

variable {before : List Event} (hb : ∀ event ∈ before, event.Plain)
  (hb' : ∀ event ∈ before, event.isMisc = true) (hr : EndsMisc rest)

include hb hb' hr

/-- What is written starts with no byte order mark. -/
theorem afterMark_chars :
    afterMark (before.flatMap Event.chars ++ rest) = before.flatMap Event.chars ++ rest := by
  have hbracket : before.flatMap Event.chars ++ rest = [] ∨
      ∃ s, before.flatMap Event.chars ++ rest = '<' :: s := by
    cases before with
    | nil =>
      rcases hr with rfl | ⟨c, s, rfl, -, -⟩
      · exact .inl rfl
      · exact .inr ⟨_, rfl⟩
    | cons event before =>
      have hevent := hb' event (by simp)
      rw [List.flatMap_cons, List.append_assoc]
      exact .inr (exists_bracket (hb event (by simp))
        (by cases event <;> first | rfl | cases hevent) _)
  rcases hbracket with hs | ⟨s, hs⟩
  · rw [hs]
    rfl
  · rw [hs]
    rfl

/-- Comments and instructions are all of the prolog, since they are written without an XML
declaration and a document type. -/
theorem prolog?_chars :
    prolog? (before.flatMap Event.chars ++ rest) = some ([], before, rest) := by
  have hxml : "<?xml ".toList.isPrefixOf (before.flatMap Event.chars ++ rest) = false := by
    cases before with
    | nil => exact not_declaration_of_endsMisc hr
    | cons event before =>
      rw [List.flatMap_cons, List.append_assoc]
      exact not_declaration_of_misc (hb event (by simp)) (hb' event (by simp)) _
  have hdoctype : afterStart? "<!DOCTYPE".toList rest = none := by
    rcases hr with rfl | ⟨c, s, rfl, hc, -⟩
    · rfl
    · simp [afterStart?, hc.symm]
  rw [prolog?, hxml]
  simp only [Bool.false_eq_true, if_false, Option.bind_eq_bind, Option.bind_some,
    misc?_chars hb hb' hr, hdoctype]
  rfl

end Prolog

/-- A document of one element, with comments and instructions around it, is read as it is
written. -/
theorem read?_chars {before after inside : List Event} {tag : StartTag}
    (hb : ∀ event ∈ before, event.Plain) (hb' : ∀ event ∈ before, event.isMisc = true)
    (h : tag.Plain) (hi : ∀ event ∈ inside, event.Plain) (hs : Separated inside)
    (he : IsElement tag inside) (ha : ∀ event ∈ after, event.Plain)
    (ha' : ∀ event ∈ after, event.isMisc = true) :
    read? ((before ++ .startTag tag :: inside ++ after).flatMap Event.chars) =
      some (before ++ .startTag tag :: inside ++ after) := by
  obtain ⟨element, helement⟩ : ∃ element, tag.chars ++ (inside.flatMap Event.chars ++
    after.flatMap Event.chars) = element := ⟨_, rfl⟩
  have hwhole : (before ++ .startTag tag :: inside ++ after).flatMap Event.chars =
      before.flatMap Event.chars ++ element := by
    simp [← helement]
  have hends : EndsMisc element := helement ▸ endsMisc_startTag h.name _
  have hread : element? [] element = some (.startTag tag :: inside, after.flatMap Event.chars) :=
    helement ▸ element?_chars h hi hs he _
  have hafter : misc? (after.flatMap Event.chars) = some (after, []) := by
    simpa using misc?_chars ha ha' (.inl rfl : EndsMisc [])
  rw [hwhole, read?, afterMark_chars hb hb' hends, prolog?_chars hb hb' hends]
  simp only [Option.bind_eq_bind, Option.bind_some, skipSpace_of_endsMisc hends, hread, hafter]
  rw [List.isEmpty_nil, if_pos rfl]

end MarkupQuery.Xml
