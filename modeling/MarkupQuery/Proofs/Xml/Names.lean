import Mathlib.Data.List.Forall2
import Mathlib.Data.List.TakeWhile
import MarkupQuery.Xml.Escape
import MarkupQuery.Xml.Text

namespace MarkupQuery.Xml

/-- Every character is written as itself or as a reference to its predefined entity; the ampersand
is never written as itself. -/
def Escaping (escape : Char → List Char) : Prop :=
  ∀ c, escape c = [c] ∧ c ≠ '&' ∨
    ∃ name, predefined? name = some c ∧ escape c = '&' :: name.toList ++ [';']

/-- A piece of character data that gives this one character. Those that are given by references need
no normalization. -/
def Piece.Gives (piece : Piece) (c : Char) : Prop :=
  piece = .literal c ∨ piece = .referenced c ∧ spaceFor c = c

theorem Piece.Gives.literal {piece : Piece} {c : Char} (h : piece.Gives c)
    (hc : spaceFor c ≠ c) : piece = .literal c := h.resolve_right fun hreferenced => hc hreferenced.2

def normalizedValue : List Char → List Char
  | '\r' :: '\n' :: rest => ' ' :: normalizedValue rest
  | c :: rest => spaceFor c :: normalizedValue rest
  | [] => []

theorem escaping_inQuotes : Escaping escapeInQuotes := by
  intro c
  unfold escapeInQuotes
  split
  · exact .inr ⟨"lt", rfl, rfl⟩
  · exact .inr ⟨"gt", rfl, rfl⟩
  · exact .inr ⟨"amp", rfl, rfl⟩
  · exact .inr ⟨"apos", rfl, rfl⟩
  · exact .inr ⟨"quot", rfl, rfl⟩
  · exact .inl ⟨rfl, by assumption⟩

theorem escaping_inContent : Escaping escapeInContent := by
  intro c
  unfold escapeInContent
  split
  · exact .inr ⟨"lt", rfl, rfl⟩
  · exact .inr ⟨"gt", rfl, rfl⟩
  · exact .inr ⟨"amp", rfl, rfl⟩
  · exact .inl ⟨rfl, by assumption⟩

theorem reference?_predefined {name : String} {c : Char} (h : predefined? name = some c)
    (rest : List Char) :
    reference? (name.toList ++ ';' :: rest) = some (.referenced c, rest) := by
  unfold predefined? at h
  split at h
  all_goals first | (obtain rfl := Option.some.inj h; rfl) | cases h

theorem spaceFor_predefined {name : String} {c : Char} (h : predefined? name = some c) :
    spaceFor c = c := by
  unfold predefined? at h
  split at h
  all_goals first | (obtain rfl := Option.some.inj h; rfl) | cases h

theorem piecesUpTo_escaped {escape : Char → List Char} (he : Escaping escape) (s : List Char) :
    ∀ fuel, (s.flatMap escape).length ≤ fuel →
      ∃ pieces, piecesUpTo fuel (s.flatMap escape) = some pieces ∧
        List.Forall₂ Piece.Gives pieces s := by
  induction s with
  | nil => exact fun fuel _ => ⟨[], by cases fuel <;> rfl, .nil⟩
  | cons c s ih =>
    intro fuel hfuel
    rw [List.flatMap_cons] at hfuel ⊢
    rcases he c with ⟨hc, hne⟩ | ⟨name, hname, hc⟩
    · rw [hc, List.singleton_append, List.length_cons] at hfuel
      obtain ⟨fuel, rfl⟩ := Nat.exists_eq_add_of_lt hfuel
      obtain ⟨pieces, hpieces, hgives⟩ := ih _ (Nat.le_add_right _ fuel)
      refine ⟨.literal c :: pieces, ?_, .cons (.inl rfl) hgives⟩
      rw [hc, List.singleton_append, piecesUpTo, hpieces]
      · rfl
      · exact hne
    · rw [hc] at hfuel ⊢
      simp only [List.cons_append, List.length_cons, List.append_assoc, List.nil_append] at hfuel ⊢
      obtain ⟨fuel, rfl⟩ := Nat.exists_eq_add_of_lt hfuel
      obtain ⟨pieces, hpieces, hgives⟩ := ih
        ((name.toList ++ ';' :: s.flatMap escape).length + fuel) (by simp; omega)
      refine ⟨.referenced c :: pieces, ?_, .cons (.inr ⟨rfl, spaceFor_predefined hname⟩) hgives⟩
      rw [piecesUpTo, reference?_predefined hname]
      simp only [Option.bind_eq_bind, Option.bind_some, hpieces]
      rfl

/-- Escaped text is cut into pieces that give its characters, one by one. -/
theorem pieces?_escaped {escape : Char → List Char} (he : Escaping escape) (s : List Char) :
    ∃ pieces, pieces? (s.flatMap escape) = some pieces ∧ List.Forall₂ Piece.Gives pieces s :=
  piecesUpTo_escaped he s _ (Nat.le_refl _)

theorem pushLine_of_ne {out : List Char} {c : Char} (hc : c ≠ '\r') (hout : '\r' ∉ out)
    (atEnd : Bool) : pushLine out c atEnd = c :: out := by
  have hlast : (if (atEnd && c == '\r') = true then ['\n'] else [c]) = [c] := by simp [hc]
  unfold pushLine
  rw [hlast]
  split
  · simp at hout
  · rfl

/-- Character data without carriage returns is left as it is. -/
theorem chunks_of_gives {pieces : List Piece} {s : List Char}
    (h : List.Forall₂ Piece.Gives pieces s) (hs : '\r' ∉ s) :
    ∀ {out : List Char} {asIs : Bool}, '\r' ∉ out →
      chunks false out asIs pieces = flush (s.reverse ++ out) [] := by
  induction h with
  | nil => exact fun _ => rfl
  | @cons piece c pieces s hpiece _ ih =>
    intro out asIs hout
    obtain ⟨hc, hs⟩ := List.ne_and_not_mem_of_not_mem_cons hs
    have hnext : '\r' ∉ c :: out := List.not_mem_cons_of_ne_of_not_mem hc hout
    have hrest : s.reverse ++ c :: out = (c :: s).reverse ++ out := by simp
    rcases hpiece with rfl | ⟨rfl, -⟩
    · unfold chunks
      rw [pushLine_of_ne hc.symm hout, ite_self, ih hs hnext, hrest]
    · rw [chunks, if_neg Bool.false_ne_true, ih hs hnext, hrest]

/-- A value without line ends and tabs is left as it is. -/
theorem normalizedValue_of_steady {s : List Char} (hs : ∀ c ∈ s, spaceFor c = c) :
    normalizedValue s = s := by
  fun_induction normalizedValue s with
  | case1 rest ih => exact absurd (hs '\r' (by simp)) (by decide)
  | case2 c rest _ ih =>
    obtain ⟨hc, hrest⟩ := List.forall_mem_cons.mp hs
    rw [hc, ih hrest]
  | case3 => rfl

/-- A value that is read without a space is left as it is. -/
theorem normalizedValue_of_spaceless {s : List Char} (h : ' ' ∉ normalizedValue s) :
    normalizedValue s = s := by
  fun_induction normalizedValue s with
  | case1 rest ih => simp at h
  | case2 c rest hne ih =>
    simp only [List.mem_cons, not_or] at h
    have hc : spaceFor c = c := by
      have hspace := h.1
      unfold spaceFor at hspace ⊢
      split_ifs at hspace ⊢
      · exact absurd rfl hspace
      · rfl
    rw [hc, ih h.2]
  | case3 => rfl

/-- The pieces of an escaped value give it normalized. -/
theorem attributeText_of_gives {expand : Nat → String → Option (List Char × Nat)}
    {references : Nat} {pieces : List Piece} {s : List Char}
    (h : List.Forall₂ Piece.Gives pieces s) :
    attributeText expand false references pieces = some (normalizedValue s, references) := by
  fun_induction normalizedValue s generalizing pieces with
  | case1 rest ih =>
    obtain ⟨_, _, hreturn, hmore, rfl⟩ := List.forall₂_cons_right_iff.mp h
    obtain ⟨_, _, hfeed, hrest, rfl⟩ := List.forall₂_cons_right_iff.mp hmore
    obtain rfl := hreturn.literal (by decide)
    obtain rfl := hfeed.literal (by decide)
    rw [attributeText, ih hrest]
    rfl
  | case2 c rest hne ih =>
    obtain ⟨piece, pieces, hpiece, hrest, rfl⟩ := List.forall₂_cons_right_iff.mp h
    rcases hpiece with rfl | ⟨rfl, hc⟩
    · rw [attributeText, ih hrest]
      · rfl
      · rintro more rfl hreturn
        obtain ⟨feed, after, hfeed, -, rfl⟩ := List.forall₂_cons_left_iff.mp hrest
        obtain rfl : '\n' = feed := by simpa [Piece.Gives] using hfeed
        exact hne after hreturn rfl
    · rw [attributeText, ih hrest, hc]
      rfl
  | case3 =>
    cases h
    rfl

/-!
Names, quoted values and marked stretches of text in front of any other text. What the reader took
for one of them once, it takes for it again when it is written out, whatever follows.
-/

open MarkupQuery.Text

structure IsName (name : String) : Prop where
  starts : startsName name.toList = true
  continues : ∀ c ∈ name.toList, isNameChar c = true

/-- A name that the reader takes in full. Nothing may stand in front of its colon. -/
structure QName.Legible (name : QName) : Prop where
  localName : IsName name.localName
  qualifier : ∀ q, name.written = some q → q = "" ∨ IsName q

def QName.chars (name : QName) : List Char :=
  match name.written with
  | some q => q.toList ++ ':' :: name.localName.toList
  | none => name.localName.toList

/-- The target of an instruction. Colons are like letters there. -/
structure IsTarget (target : String) : Prop where
  starts : ∃ c ∈ target.toList.head?, isNameStart c = true ∨ c = ':'
  continues : ∀ c ∈ target.toList, isNameChar c = true ∨ c = ':'

def Fits (mark inside : List Char) : Prop :=
  ∀ rest, cutAt mark (inside ++ mark ++ rest) = some (inside, rest)

variable {s inside after rest mark : List Char} {name : QName} {target : String}

theorem isNameChar_of_isNameStart {c : Char} (h : isNameStart c = true) : isNameChar c = true := by
  simp [isNameChar, h]

theorem startsName_iff {s : List Char} :
    startsName s = true ↔ ∃ c ∈ s.head?, isNameStart c = true := by
  cases s <;> simp [startsName]

theorem IsName.head_mem {name : String} (h : IsName name) :
    ∃ c ∈ name.toList.head?, isNameStart c = true := startsName_iff.mp h.starts

theorem IsName.ne_empty {name : String} (h : IsName name) : name ≠ "" := by
  rintro rfl
  exact absurd h.starts (by decide)

theorem IsName.colon_not_mem {name : String} (h : IsName name) : ':' ∉ name.toList := fun hmem =>
  absurd (h.continues ':' hmem) (by decide)

theorem isName_xmlns : IsName "xmlns" :=
  ⟨rfl, fun c hc => List.all_eq_true.mp (by decide) c hc⟩

theorem isName_xml : IsName "xml" :=
  ⟨rfl, fun c hc => List.all_eq_true.mp (by decide) c hc⟩

section TakeWhile

variable {p : Char → Bool} (hs : ∀ c ∈ s, p c = true) (hr : ∀ c ∈ rest.head?, p c = false)
include hs hr

theorem takeWhile_exact : (s ++ rest).takeWhile p = s := by
  have hrest : rest.takeWhile p = [] := by
    cases rest with
    | nil => rfl
    | cons c rest => simp [hr c rfl]
  rw [List.takeWhile_append_of_pos hs, hrest, List.append_nil]

theorem dropWhile_exact : (s ++ rest).dropWhile p = rest := by
  have hrest : rest.dropWhile p = rest := by
    cases rest with
    | nil => rfl
    | cons c rest => simp [hr c rfl]
  rw [List.dropWhile_append_of_pos hs, hrest]

end TakeWhile

theorem head_chars (h : name.Legible) (rest : List Char) :
    ∃ c ∈ (name.chars ++ rest).head?, isNameStart c = true ∨ c = ':' := by
  unfold QName.chars
  cases hw : name.written with
  | none =>
    obtain ⟨c, hc, hstart⟩ := h.localName.head_mem
    exact ⟨c, by simp_all, .inl hstart⟩
  | some q =>
    rcases h.qualifier q hw with rfl | hq
    · exact ⟨':', by simp, .inr rfl⟩
    · obtain ⟨c, hc, hstart⟩ := hq.head_mem
      exact ⟨c, by simp_all, .inl hstart⟩

/-- A name is read in full wherever no part of a name follows it. -/
theorem qualifiedName?_chars (h : name.Legible)
    (hr : ∀ c ∈ rest.head?, isNameChar c = false ∧ c ≠ ':') :
    qualifiedName? (name.chars ++ rest) = some (name, rest) := by
  have hrest : ∀ c ∈ rest.head?, isNameChar c = false := fun c hc => (hr c hc).1
  have hlocal := takeWhile_exact h.localName.continues hrest
  have hbehind := dropWhile_exact h.localName.continues hrest
  obtain ⟨written, localName⟩ := name
  unfold QName.chars qualifiedName?
  cases written with
  | none =>
    simp only [hlocal, hbehind]
    split
    · exact absurd rfl (hr ':' rfl).2
    · rw [if_pos h.localName.starts, String.ofList_toList]
  | some q =>
    have hq : ∀ c ∈ q.toList, isNameChar c = true := by
      rcases h.qualifier q rfl with rfl | hq
      · simp
      · exact hq.continues
    have hstart : (q.toList.isEmpty || startsName q.toList) = true := by
      rcases h.qualifier q rfl with rfl | hq
      · rfl
      · simp [hq.starts]
    have hcolon : ∀ c ∈ (':' :: (localName.toList ++ rest)).head?, isNameChar c = false := by
      simp only [List.head?_cons, Option.mem_some_iff]
      rintro _ rfl
      decide
    simp only [List.append_assoc, List.cons_append, takeWhile_exact hq hcolon,
      dropWhile_exact hq hcolon, hlocal, hbehind, hstart, h.localName.starts, Bool.and_self,
      if_true, String.ofList_toList]

theorem isName_ofList_takeWhile {s : List Char} (h : startsName (s.takeWhile isNameChar) = true) :
    IsName (String.ofList (s.takeWhile isNameChar)) where
  starts := by rwa [String.toList_ofList]
  continues := by
    rw [String.toList_ofList]
    exact fun c hc => List.mem_takeWhile_imp hc

theorem legible_of_qualifiedName? (h : qualifiedName? s = some (name, rest)) : name.Legible := by
  simp only [qualifiedName?] at h
  split at h
  · split at h
    · rename_i hstart
      obtain ⟨rfl, -⟩ := Prod.mk.inj (Option.some.inj h)
      simp only [Bool.and_eq_true, Bool.or_eq_true] at hstart
      refine ⟨isName_ofList_takeWhile hstart.2, fun q hq => ?_⟩
      obtain rfl := Option.some.inj hq
      refine hstart.1.imp (fun hnil => ?_) isName_ofList_takeWhile
      rw [List.isEmpty_iff.mp hnil, String.ofList_nil]
    · cases h
  · split at h
    · rename_i hstart
      obtain ⟨rfl, -⟩ := Prod.mk.inj (Option.some.inj h)
      exact ⟨isName_ofList_takeWhile hstart, by simp⟩
    · cases h

theorem name?_target (h : IsTarget target)
    (hr : ∀ c ∈ rest.head?, isNameChar c = false ∧ c ≠ ':') :
    name? (target.toList ++ rest) = some (target, rest) := by
  obtain ⟨c, hc, hstart⟩ := h.starts
  obtain ⟨cs, hcs⟩ := List.head?_eq_some_iff.mp hc
  have hall := h.continues
  rw [hcs] at hall ⊢
  have hcontinues : ∀ x ∈ cs, (isNameChar x || x == ':') = true := fun x hx => by
    simpa using hall x (List.mem_cons_of_mem c hx)
  have hrest : ∀ x ∈ rest.head?, (isNameChar x || x == ':') = false := fun x hx => by
    simpa using hr x hx
  rw [List.cons_append, name?]
  simp only [takeWhile_exact hcontinues hrest, dropWhile_exact hcontinues hrest]
  rw [if_pos (by simpa using hstart), ← hcs, String.ofList_toList]

theorem isTarget_of_name? (h : name? s = some (target, rest)) : IsTarget target := by
  cases s with
  | nil => cases h
  | cons c s =>
    simp only [name?] at h
    split at h
    · rename_i hc
      obtain ⟨rfl, -⟩ := Prod.mk.inj (Option.some.inj h)
      rw [Bool.or_eq_true, beq_iff_eq] at hc
      refine ⟨⟨c, by simp, hc⟩, ?_⟩
      rw [String.toList_ofList, List.forall_mem_cons]
      refine ⟨hc.imp_left isNameChar_of_isNameStart, fun x hx => ?_⟩
      simpa using List.mem_takeWhile_imp hx
    · cases h

theorem skipSpace_of_head (h : ∀ c ∈ s.head?, isSpace c = false) : skipSpace s = s :=
  dropWhile_exact (s := []) (by simp) h

theorem head_skipSpace (s : List Char) : ∀ c ∈ (skipSpace s).head?, isSpace c = false := by
  intro c hc
  have := List.head?_dropWhile_not isSpace s
  rw [skipSpace] at hc
  rw [Option.mem_def.mp hc] at this
  simpa using this

/-- Where a mark was found first, it is found first whatever follows it. -/
theorem fits_of_cutAt (h : cutAt mark s = some (inside, after)) : Fits mark inside := by
  intro rest
  induction s generalizing inside with
  | nil =>
    simp only [cutAt] at h
    split at h
    · rename_i hmark
      obtain ⟨rfl, rfl⟩ := Prod.mk.inj (Option.some.inj h)
      rw [List.isEmpty_iff.mp hmark]
      cases rest <;> simp [cutAt]
    · cases h
  | cons c s ih =>
    rw [cutAt] at h
    split at h
    · obtain ⟨rfl, -⟩ := Prod.mk.inj (Option.some.inj h)
      cases mark with
      | nil => cases rest <;> simp [cutAt]
      | cons m mark => simp [cutAt]
    · rename_i hnot
      obtain ⟨⟨before, _⟩, hcut, hp⟩ := Option.map_eq_some_iff.mp h
      obtain ⟨rfl, rfl⟩ := Prod.mk.inj hp
      -- a mark that begins here would end before the rest does
      have hnone : ¬ mark.isPrefixOf (c :: (before ++ mark ++ rest)) = true := by
        rw [cutAt_eq_append hcut] at hnot
        rw [List.isPrefixOf_iff_prefix] at hnot ⊢
        intro hprefix
        refine hnot (List.IsPrefix.trans ?_ (List.prefix_append (c :: (before ++ mark)) _))
        exact List.prefix_of_prefix_length_le hprefix
          (List.prefix_append (c :: (before ++ mark)) rest) (by simp; omega)
      rw [List.cons_append, List.cons_append, cutAt, if_neg hnone, ih hcut]
      rfl

theorem cutAt_of_upTo? {mark : String} (h : upTo? mark s = some (inside, after)) :
    cutAt mark.toList s = some (inside, after) ∧ ∀ c ∈ inside, isChar c = true := by
  simp only [upTo?, Option.bind_eq_bind, Option.bind_eq_some_iff, Option.ite_none_right_eq_some,
    Option.some.injEq, Prod.mk.injEq, List.all_eq_true] at h
  obtain ⟨⟨_, _⟩, hcut, hchar, rfl, rfl⟩ := h
  exact ⟨hcut, hchar⟩

theorem upTo?_of_fits {mark : String} (h : Fits mark.toList inside)
    (hchar : ∀ c ∈ inside, isChar c = true) (rest : List Char) :
    upTo? mark (inside ++ mark.toList ++ rest) = some (inside, rest) := by
  simp only [upTo?, h rest, Option.bind_eq_bind, Option.bind_some]
  rw [if_pos (List.all_eq_true.mpr hchar)]

theorem quoted?_exact {p : Char → Bool} (h : ∀ c ∈ inside, c ≠ '"' ∧ p c = true)
    (rest : List Char) : quoted? p ('"' :: (inside ++ '"' :: rest)) = some (inside, rest) := by
  have hinside : ∀ c ∈ inside, (c != '"' && p c) = true := fun c hc => by simpa using h c hc
  have hend : ∀ c ∈ ('"' :: rest).head?, (c != '"' && p c) = false := by simp
  simp only [quoted?, beq_self_eq_true, Bool.true_or, if_true, takeWhile_exact hinside hend,
    dropWhile_exact hinside hend]

/-- No value goes on behind a character that must not be in it. -/
theorem quoted?_bad {p : Char → Bool} {c : Char} (h : ∀ c ∈ inside, c ≠ '"' ∧ p c = true)
    (hc : c ≠ '"' ∧ p c = false) (rest : List Char) : quoted? p ('"' :: (inside ++ c :: rest)) = none := by
  have hinside : ∀ c ∈ inside, (c != '"' && p c) = true := fun c hc => by simpa using h c hc
  have hend : ∀ c' ∈ (c :: rest).head?, (c' != '"' && p c') = false := by simp [hc.2]
  simp only [quoted?, beq_self_eq_true, Bool.true_or, if_true, dropWhile_exact hinside hend]
  exact if_neg (by simpa using hc.1)

end MarkupQuery.Xml
