import MarkupQuery.Proofs.Xml.Rereading

namespace MarkupQuery.Xml

open MarkupQuery.Text

/-- What holds of an event of whatever markup. The values of attributes are not looked at: those of
entities may hold any character. -/
def Event.Legible : Event → Prop
  | .startTag tag => tag.name.Legible ∧ ∀ a ∈ tag.attributes, a.name.Legible
  | .endTag _ => True
  | .text content => ∀ c ∈ content.toList, isChar c = true
  | .comment content => IsComment content
  | .instruction target data => IsInstruction target data

def ExpandsLegibly (expand : Nat → String → Option (List Event × Nat)) : Prop :=
  ∀ references name events count, expand references name = some (events, count) →
    ∀ event ∈ events, event.Legible

/-- A piece that stands for a character of markup, or for an entity. -/
def Piece.Legible : Piece → Prop
  | .literal c | .referenced c => isChar c = true
  | .entity _ => True

def Chunk.Legible : Chunk → Prop
  | .text content => ∀ c ∈ content, isChar c = true
  | .entity _ => True

variable {scope : Scope} {event : Event} {events : List Event} {s rest : List Char}

theorem legible_of_comment? (h : comment? s = some (event, rest)) : event.Legible := by
  simp only [comment?, Option.bind_eq_bind, Option.bind_eq_some_iff] at h
  obtain ⟨⟨inside, _⟩, hcut, h⟩ := h
  obtain ⟨hcut, hchars⟩ := cutAt_of_upTo? hcut
  dsimp only at h
  split at h
  · cases h
  · rename_i hdashes
    simp only [Bool.or_eq_true, beq_iff_eq, not_or, Bool.not_eq_true] at hdashes
    obtain ⟨rfl, -⟩ := Prod.mk.inj (Option.some.inj h)
    have hinside : (String.ofList inside).toList = inside := String.toList_ofList
    exact {
      chars := hinside.symm ▸ hchars
      fits := hinside.symm ▸ fits_of_cutAt hcut
      dashes := hinside.symm ▸ hdashes.1
      last := hinside.symm ▸ hdashes.2 }

theorem legible_of_instruction? (h : instruction? s = some (event, rest)) : event.Legible := by
  unfold instruction? at h
  split at h
  · cases h
  · simp only [Option.bind_eq_bind, Option.bind_eq_some_iff, Option.pure_def, Option.some.injEq,
      Prod.mk.injEq] at h
    obtain ⟨⟨target, more⟩, hname, ⟨inside, after⟩, hcut, rfl, -⟩ := h
    obtain ⟨hcut, hchars⟩ := cutAt_of_upTo? hcut
    have hstarts : ∀ c ∈ inside.head?, isSpace c = false := fun c hc => by
      refine head_skipSpace more c ?_
      obtain ⟨_, rfl⟩ := List.head?_eq_some_iff.mp hc
      rw [cutAt_eq_append hcut]
      rfl
    have hdata : ∀ d ∈ (if inside.isEmpty then none else some (String.ofList inside)),
        d.toList = inside ∧ inside ≠ [] := by
      intro d hd
      simp only [Option.mem_def, Option.ite_none_left_eq_some, Option.some.injEq] at hd
      obtain ⟨hne, rfl⟩ := hd
      exact ⟨String.toList_ofList, by simpa using hne⟩
    exact {
      target := isTarget_of_name? hname
      ne_nil := fun d hd => (hdata d hd).1 ▸ (hdata d hd).2
      chars := fun d hd => (hdata d hd).1 ▸ hchars
      fits := fun d hd => (hdata d hd).1 ▸ fits_of_cutAt hcut
      starts := fun d hd => (hdata d hd).1 ▸ hstarts }

theorem legible_of_attributesUpTo {fuel references count : Nat} {ending : TagEnd}
    {attributes : List Written}
    (h : attributesUpTo scope fuel references s = some (attributes, ending, rest, count)) :
    ∀ a ∈ attributes, a.name.Legible := by
  induction fuel generalizing references s attributes ending rest count with
  | zero => cases h
  | succ fuel ih =>
    cases s with
    | nil =>
      obtain ⟨rfl, -⟩ := Prod.mk.inj (Option.some.inj h)
      simp
    | cons c s =>
      rw [attributesUpTo] at h
      · split at h
        · obtain ⟨rfl, -⟩ := Prod.mk.inj (Option.some.inj h)
          simp
        · obtain ⟨rfl, -⟩ := Prod.mk.inj (Option.some.inj h)
          simp
        · simp only [Option.bind_eq_bind, Option.bind_eq_some_iff, Option.pure_def,
            Option.some.injEq, Prod.mk.injEq] at h
          obtain ⟨_, -, ⟨name, _, _⟩, hread, ⟨_, _⟩, -, ⟨more, _, _, _⟩, hmore, rfl, -⟩ := h
          simp only [attribute?, Option.bind_eq_bind, Option.bind_eq_some_iff] at hread
          obtain ⟨⟨name', _⟩, hname, hread⟩ := hread
          dsimp only at hread
          split at hread
          · simp only [Option.bind_eq_some_iff, Option.pure_def, Option.some.injEq,
              Prod.mk.injEq] at hread
            obtain ⟨_, -, rfl, -⟩ := hread
            exact List.forall_mem_cons.mpr ⟨legible_of_qualifiedName? hname, ih hmore⟩
          · cases hread
      · exact List.cons_ne_nil _ _

theorem legible_of_startTag? {references count : Nat} {tag : StartTag}
    (h : startTag? scope references s = some (tag, rest, count)) :
    (Event.startTag tag).Legible := by
  simp only [startTag?, Option.bind_eq_bind, Option.bind_eq_some_iff, Option.pure_def,
    Option.some.injEq, Prod.mk.injEq] at h
  obtain ⟨⟨name, _⟩, hname, ⟨attributes, _, _, _⟩, hattributes, rfl, -⟩ := h
  exact ⟨legible_of_qualifiedName? hname, legible_of_attributesUpTo hattributes⟩

section Pieces

variable {piece piece' : Piece} {pieces : List Piece}

theorem eq_of_endReference? (h : endReference? piece' s = some (piece, rest)) :
    piece = piece' ∧ s = ';' :: rest := by
  unfold endReference? at h
  split at h
  · obtain ⟨rfl, rfl⟩ := Prod.mk.inj (Option.some.inj h)
    exact ⟨rfl, rfl⟩
  · cases h

theorem isChar_of_codedChar? {digits : List Char} {base : Nat} {c : Char}
    (h : codedChar? digits base = some c) : isChar c = true := by
  simp only [codedChar?, Option.ite_none_left_eq_some, Option.some.injEq] at h
  obtain ⟨hchar, rfl⟩ := h
  simp only [Bool.or_eq_true, not_or, Bool.not_eq_true, Bool.not_eq_false'] at hchar
  exact hchar.2

theorem codedReference?_spec {isDigit : Char → Bool} {base : Nat}
    (h : codedReference? isDigit base s = some (piece, rest)) : piece.Legible ∧ rest <:+ s := by
  simp only [codedReference?, Option.bind_eq_bind, Option.bind_eq_some_iff] at h
  obtain ⟨c, hc, h⟩ := h
  obtain ⟨rfl, hrest⟩ := eq_of_endReference? h
  exact ⟨isChar_of_codedChar? hc,
    (List.suffix_cons _ _).trans (hrest ▸ List.dropWhile_suffix isDigit)⟩

theorem name?_suffix {name : String} (h : name? s = some (name, rest)) : rest <:+ s := by
  cases s with
  | nil => cases h
  | cons c s =>
    simp only [name?] at h
    split at h
    · obtain ⟨-, rfl⟩ := Prod.mk.inj (Option.some.inj h)
      exact (List.dropWhile_suffix _).trans (List.suffix_cons _ _)
    · cases h

theorem isChar_of_predefined? {name : String} {c : Char} (h : predefined? name = some c) :
    isChar c = true := by
  unfold predefined? at h
  split at h
  all_goals first | (obtain rfl := Option.some.inj h; rfl) | cases h

/-- A reference stands for a character of markup or for an entity. -/
theorem reference?_spec (h : reference? s = some (piece, rest)) : piece.Legible ∧ rest <:+ s := by
  unfold reference? at h
  split at h
  · obtain ⟨hpiece, hrest⟩ := codedReference?_spec h
    exact ⟨hpiece, hrest.trans ((List.suffix_cons _ _).trans (List.suffix_cons _ _))⟩
  · obtain ⟨hpiece, hrest⟩ := codedReference?_spec h
    exact ⟨hpiece, hrest.trans (List.suffix_cons _ _)⟩
  · simp only [Option.bind_eq_bind, Option.bind_eq_some_iff] at h
    obtain ⟨⟨name, more⟩, hname, h⟩ := h
    dsimp only at h
    split at h
    all_goals
      obtain ⟨rfl, rfl⟩ := eq_of_endReference? h
      refine ⟨?_, (List.suffix_cons _ _).trans (name?_suffix hname)⟩
    · exact isChar_of_predefined? ‹_›
    · trivial

theorem legible_of_piecesUpTo {fuel : Nat} (hs : ∀ c ∈ s, isChar c = true)
    (h : piecesUpTo fuel s = some pieces) : ∀ piece ∈ pieces, piece.Legible := by
  induction fuel generalizing s pieces with
  | zero =>
    cases s with
    | nil =>
      obtain rfl := Option.some.inj h
      simp
    | cons => cases h
  | succ fuel ih =>
    unfold piecesUpTo at h
    split at h
    · obtain rfl := Option.some.inj h
      simp
    · cases h
    · rename_i hfuel
      obtain rfl := Nat.succ.inj hfuel
      simp only [Option.bind_eq_bind, Option.bind_eq_some_iff, Option.pure_def,
        Option.some.injEq] at h
      obtain ⟨⟨piece, rest⟩, hread, more, hmore, rfl⟩ := h
      obtain ⟨hpiece, hrest⟩ := reference?_spec hread
      refine List.forall_mem_cons.mpr ⟨hpiece, ih (fun c hc => ?_) hmore⟩
      exact hs c (List.mem_cons_of_mem _ (hrest.subset hc))
    · rename_i hfuel
      obtain rfl := Nat.succ.inj hfuel
      obtain ⟨more, hmore, rfl⟩ := Option.map_eq_some_iff.mp h
      obtain ⟨hc, hrest⟩ := List.forall_mem_cons.mp hs
      exact List.forall_mem_cons.mpr ⟨hc, ih hrest hmore⟩

theorem isChar_pushLine {out : List Char} {c : Char} (hout : ∀ x ∈ out, isChar x = true)
    (hc : isChar c = true) (atEnd : Bool) : ∀ x ∈ pushLine out c atEnd, isChar x = true := by
  have hline : isChar '\n' = true := rfl
  intro x hx
  unfold pushLine at hx
  dsimp only at hx
  split at hx <;> split at hx <;> (try split at hx) <;>
    simp only [List.mem_cons, List.mem_append, List.not_mem_nil, or_false] at hx hout <;> grind

theorem legible_flush {out : List Char} {more : List Chunk} (hout : ∀ x ∈ out, isChar x = true)
    (hm : ∀ chunk ∈ more, chunk.Legible) : ∀ chunk ∈ flush out more, chunk.Legible := by
  unfold flush
  split
  · exact hm
  · exact List.forall_mem_cons.mpr ⟨fun c hc => hout c (List.mem_reverse.mp hc), hm⟩

theorem legible_chunks (nested : Bool) (hp : ∀ piece ∈ pieces, piece.Legible) :
    ∀ {out : List Char} (asIs : Bool), (∀ x ∈ out, isChar x = true) →
      ∀ chunk ∈ chunks nested out asIs pieces, chunk.Legible := by
  induction pieces with
  | nil => exact fun _ hout => legible_flush hout (by simp)
  | cons piece pieces ih =>
    intro out asIs hout
    obtain ⟨hpiece, hpieces⟩ := List.forall_mem_cons.mp hp
    cases piece with
    | literal c =>
      unfold chunks
      split
      · exact ih hpieces _ (List.forall_mem_cons.mpr ⟨hpiece, hout⟩)
      · exact ih hpieces _ (isChar_pushLine hout hpiece _)
    | referenced c =>
      unfold chunks
      split
      · exact ih hpieces _ (isChar_pushLine hout hpiece _)
      · exact ih hpieces _ (List.forall_mem_cons.mpr ⟨hpiece, hout⟩)
    | entity name =>
      exact legible_flush hout (List.forall_mem_cons.mpr ⟨trivial, ih hpieces _ (by simp)⟩)

end Pieces

theorem legible_of_cdata? (h : cdata? s = some (event, rest)) : event.Legible := by
  simp only [cdata?, Option.bind_eq_bind, Option.bind_eq_some_iff, Option.pure_def,
    Option.some.injEq, Prod.mk.injEq] at h
  obtain ⟨⟨inside, _⟩, hcut, rfl, -⟩ := h
  obtain ⟨-, hchars⟩ := cutAt_of_upTo? hcut
  have hpieces : ∀ piece ∈ inside.map Piece.literal, piece.Legible := by
    simpa [Piece.Legible] using hchars
  intro c hc
  rw [String.toList_ofList, List.mem_flatMap] at hc
  obtain ⟨chunk, hchunk, hc⟩ := hc
  have hlegible := legible_chunks false hpieces false (by simp) chunk hchunk
  cases chunk with
  | text content => exact hlegible c hc
  | entity name => simp at hc

theorem legible_of_marked? (h : marked? s = some (event, rest)) : event.Legible := by
  unfold marked? at h
  split at h
  · exact legible_of_instruction? h
  · split at h
    · exact legible_of_comment? h
    · obtain ⟨_, -, h⟩ := Option.bind_eq_some_iff.mp h
      exact legible_of_cdata? h

section Content

variable {expand : Nat → String → Option (List Event × Nat)} (he : ExpandsLegibly expand)
include he

theorem legible_of_chunkEvents {nested : Bool} {list : List Chunk} {references count : Nat}
    (hl : ∀ chunk ∈ list, chunk.Legible)
    (h : chunkEvents expand nested references list = some (events, count)) :
    ∀ event ∈ events, event.Legible := by
  induction list generalizing references events count with
  | nil =>
    obtain ⟨rfl, -⟩ := Prod.mk.inj (Option.some.inj h)
    simp
  | cons chunk list ih =>
    obtain ⟨hchunk, hrest⟩ := List.forall_mem_cons.mp hl
    cases chunk with
    | text content =>
      simp only [chunkEvents, Option.bind_eq_bind, Option.bind_eq_some_iff, Option.pure_def,
        Option.some.injEq, Prod.mk.injEq] at h
      obtain ⟨⟨more, _⟩, hmore, rfl, -⟩ := h
      refine List.forall_mem_cons.mpr ⟨?_, ih hrest hmore⟩
      rw [Event.Legible, String.toList_ofList]
      exact hchunk
    | entity name =>
      simp only [chunkEvents, Option.bind_eq_bind, Option.bind_eq_some_iff, Option.pure_def,
        Option.some.injEq, Prod.mk.injEq] at h
      obtain ⟨_, -, ⟨inside, _⟩, hinside, ⟨more, _⟩, hmore, rfl, -⟩ := h
      exact List.forall_mem_append.mpr ⟨he _ _ _ _ hinside, ih hrest hmore⟩

theorem legible_of_characterData? {nested : Bool} {references count : Nat}
    (h : characterData? expand nested references s = some (events, count)) :
    ∀ event ∈ events, event.Legible := by
  unfold characterData? at h
  split at h
  · cases h
  · rename_i hchars
    simp only [Bool.or_eq_true, not_or, Bool.not_eq_true, Bool.not_eq_false', List.all_eq_true]
      at hchars
    simp only [Option.bind_eq_bind, Option.bind_eq_some_iff] at h
    obtain ⟨pieces, hpieces, h⟩ := h
    exact legible_of_chunkEvents he
      (legible_chunks nested (legible_of_piecesUpTo hchars.1 hpieces) false (by simp)) h

theorem legible_of_contentUpTo {fuel level references count : Nat} {tagged : Bool}
    (h : contentUpTo scope expand fuel level tagged references s = some (events, rest, count)) :
    ∀ event ∈ events, event.Legible := by
  induction fuel generalizing level references tagged s events rest count with
  | zero => cases h
  | succ fuel ih =>
    unfold contentUpTo at h
    split at h
    · cases ‹_ + 1 = 0›
    · obtain ⟨rfl, -⟩ := Prod.mk.inj (Option.some.inj h)
      simp
    · obtain rfl := Nat.succ.inj ‹fuel + 1 = _›
      split at h
      · -- an end tag, which ends the content or not
        split at h
        · cases h
        · simp only [Option.bind_eq_bind, Option.bind_eq_some_iff] at h
          obtain ⟨_, -, h⟩ := h
          split at h
          · obtain ⟨rfl, -⟩ := Prod.mk.inj (Option.some.inj h)
            simp [Event.Legible]
          · simp only [Option.bind_eq_some_iff, Option.pure_def, Option.some.injEq,
              Prod.mk.injEq] at h
            obtain ⟨⟨more, _, _⟩, hmore, rfl, -⟩ := h
            exact List.forall_mem_cons.mpr ⟨trivial, ih hmore⟩
      all_goals
        simp only [Option.bind_eq_bind, Option.bind_eq_some_iff, Option.pure_def,
          Option.some.injEq, Prod.mk.injEq] at h
      · obtain ⟨⟨event, _⟩, hevent, ⟨more, _, _⟩, hmore, rfl, -⟩ := h
        exact List.forall_mem_cons.mpr ⟨legible_of_marked? hevent, ih hmore⟩
      · obtain ⟨⟨event, _⟩, hevent, ⟨more, _, _⟩, hmore, rfl, -⟩ := h
        exact List.forall_mem_cons.mpr ⟨legible_of_marked? hevent, ih hmore⟩
      · obtain ⟨⟨tag, _, _⟩, htag, ⟨more, _, _⟩, hmore, rfl, -⟩ := h
        exact List.forall_mem_cons.mpr ⟨legible_of_startTag? htag, ih hmore⟩
    · obtain rfl := Nat.succ.inj ‹fuel + 1 = _›
      simp only [Option.bind_eq_bind, Option.bind_eq_some_iff, Option.pure_def,
        Option.some.injEq, Prod.mk.injEq] at h
      obtain ⟨⟨data, _⟩, hdata, ⟨more, _, _⟩, hmore, rfl, -⟩ := h
      exact List.forall_mem_append.mpr ⟨legible_of_characterData? he hdata, ih hmore⟩

end Content

theorem expandsLegibly_contentEntity (entities : Entities) (depth : Nat) :
    ExpandsLegibly (contentEntity entities depth) := by
  induction depth with
  | zero => exact fun _ _ _ _ h => by cases h
  | succ depth ih =>
    intro references name events count h
    simp only [contentEntity, Option.bind_eq_bind, Option.bind_eq_some_iff, Option.pure_def,
      Option.some.injEq, Prod.mk.injEq] at h
    obtain ⟨value, -, ⟨_, _, _⟩, hcontent, rfl, -⟩ := h
    exact legible_of_contentUpTo ih hcontent

theorem legible_of_subsetUpTo {fuel : Nat} {entities : Entities}
    (h : subsetUpTo fuel s = some (entities, events, rest)) :
    ∀ event ∈ events, event.Legible := by
  induction fuel generalizing s entities events rest with
  | zero => cases h
  | succ fuel ih =>
    unfold subsetUpTo at h
    dsimp only at h
    -- in turn the end, an entity, a comment, an instruction, a bracket, and what is skipped
    split at h
    · obtain ⟨-, hevents⟩ := Prod.mk.inj (Option.some.inj h)
      obtain ⟨rfl, -⟩ := Prod.mk.inj hevents
      simp
    · split at h
      · simp only [Option.bind_eq_bind, Option.bind_eq_some_iff, Option.pure_def,
          Option.some.injEq, Prod.mk.injEq] at h
        obtain ⟨_, -, ⟨_, _, _⟩, hmore, -, rfl, -⟩ := h
        exact ih hmore
      · split at h
        · simp only [Option.bind_eq_bind, Option.bind_eq_some_iff, Option.pure_def,
            Option.some.injEq, Prod.mk.injEq] at h
          obtain ⟨⟨event, _⟩, hevent, ⟨_, _, _⟩, hmore, -, rfl, -⟩ := h
          exact List.forall_mem_cons.mpr ⟨legible_of_comment? hevent, ih hmore⟩
        · split at h
          · simp only [Option.bind_eq_bind, Option.bind_eq_some_iff, Option.pure_def,
              Option.some.injEq, Prod.mk.injEq] at h
            obtain ⟨⟨event, _⟩, hevent, ⟨_, _, _⟩, hmore, -, rfl, -⟩ := h
            exact List.forall_mem_cons.mpr ⟨legible_of_instruction? hevent, ih hmore⟩
          · split at h
            · split at h
              · obtain ⟨-, hevents⟩ := Prod.mk.inj (Option.some.inj h)
                obtain ⟨rfl, -⟩ := Prod.mk.inj hevents
                simp
              · cases h
            · split at h
              · simp only [Option.bind_eq_bind, Option.bind_eq_some_iff] at h
                obtain ⟨_, -, hmore⟩ := h
                exact ih hmore
              · cases h

theorem legible_of_doctype? {entities : Entities}
    (h : doctype? s = some (entities, events, rest)) : ∀ event ∈ events, event.Legible := by
  simp only [doctype?, Option.bind_eq_bind, Option.bind_eq_some_iff] at h
  obtain ⟨_, -, _, -, _, -, h⟩ := h
  split at h
  · obtain ⟨-, hevents⟩ := Prod.mk.inj (Option.some.inj h)
    obtain ⟨rfl, -⟩ := Prod.mk.inj hevents
    simp
  · exact legible_of_subsetUpTo h
  · cases h

theorem legible_of_misc? (h : misc? s = some (events, rest)) :
    ∀ event ∈ events, event.Legible := by
  unfold misc? at h
  generalize s.length + 1 = fuel at h
  induction fuel generalizing s events rest with
  | zero =>
    obtain ⟨rfl, -⟩ := Prod.mk.inj (Option.some.inj h)
    simp
  | succ fuel ih =>
    unfold miscUpTo at h
    dsimp only at h
    split at h
    · simp only [Option.bind_eq_bind, Option.bind_eq_some_iff, Option.pure_def,
        Option.some.injEq, Prod.mk.injEq] at h
      obtain ⟨⟨event, _⟩, hevent, ⟨_, _⟩, hmore, rfl, -⟩ := h
      exact List.forall_mem_cons.mpr ⟨legible_of_comment? hevent, ih hmore⟩
    · split at h
      · simp only [Option.bind_eq_bind, Option.bind_eq_some_iff, Option.pure_def,
          Option.some.injEq, Prod.mk.injEq] at h
        obtain ⟨⟨event, _⟩, hevent, ⟨_, _⟩, hmore, rfl, -⟩ := h
        exact List.forall_mem_cons.mpr ⟨legible_of_instruction? hevent, ih hmore⟩
      · obtain ⟨rfl, -⟩ := Prod.mk.inj (Option.some.inj h)
        simp

/-- What follows an XML declaration, or the beginning of markup without one. -/
theorem legible_of_start {start : List Char} {entities : Entities}
    (h : (do
      let (before, rest) ← misc? start
      match afterStart? "<!DOCTYPE".toList rest with
      | none => pure ([], before, rest)
      | some rest => do
        let (entities, inside, rest) ← doctype? rest
        let (between, rest) ← misc? rest
        pure (entities, before ++ inside ++ between, rest)) = some (entities, events, rest)) :
    ∀ event ∈ events, event.Legible := by
  simp only [Option.bind_eq_bind, Option.bind_eq_some_iff] at h
  obtain ⟨⟨before, _⟩, hbefore, h⟩ := h
  split at h
  · simp only [Option.pure_def, Option.some.injEq, Prod.mk.injEq] at h
    obtain ⟨-, rfl, -⟩ := h
    exact legible_of_misc? hbefore
  · simp only [Option.bind_eq_some_iff, Option.pure_def, Option.some.injEq, Prod.mk.injEq] at h
    obtain ⟨⟨_, inside, _⟩, hinside, ⟨between, _⟩, hbetween, -, rfl, -⟩ := h
    exact List.forall_mem_append.mpr ⟨List.forall_mem_append.mpr
      ⟨legible_of_misc? hbefore, legible_of_doctype? hinside⟩, legible_of_misc? hbetween⟩

theorem legible_of_prolog? {entities : Entities}
    (h : prolog? s = some (entities, events, rest)) : ∀ event ∈ events, event.Legible := by
  unfold prolog? at h
  split at h
  · obtain ⟨start, -, h⟩ := Option.bind_eq_some_iff.mp h
    exact legible_of_start h
  · exact legible_of_start h

theorem legible_of_element? {entities : Entities}
    (h : element? entities s = some (events, rest)) : ∀ event ∈ events, event.Legible := by
  unfold element? at h
  split at h
  · simp only [Option.bind_eq_bind, Option.bind_eq_some_iff] at h
    obtain ⟨⟨tag, _, _⟩, htag, h⟩ := h
    dsimp only at h
    split at h
    · simp only [Option.bind_eq_some_iff, Option.pure_def, Option.some.injEq,
        Prod.mk.injEq] at h
      obtain ⟨⟨inside, _, _⟩, hinside, rfl, -⟩ := h
      exact List.forall_mem_cons.mpr ⟨legible_of_startTag? htag,
        legible_of_contentUpTo (expandsLegibly_contentEntity _ _) hinside⟩
    · obtain ⟨rfl, -⟩ := Prod.mk.inj (Option.some.inj h)
      exact List.forall_mem_singleton.mpr (legible_of_startTag? htag)
  · cases h

/-- All events of markup are legible. -/
theorem legible_of_read? (h : read? s = some events) : ∀ event ∈ events, event.Legible := by
  simp only [read?, Option.bind_eq_bind, Option.bind_eq_some_iff,
    Option.ite_none_right_eq_some, Option.some.injEq] at h
  obtain ⟨⟨_, before, _⟩, hbefore, ⟨content, _⟩, hcontent, ⟨after, _⟩, hafter, -, rfl⟩ := h
  exact List.forall_mem_append.mpr ⟨List.forall_mem_append.mpr
    ⟨legible_of_prolog? hbefore, legible_of_element? hcontent⟩, legible_of_misc? hafter⟩

end MarkupQuery.Xml
