import MarkupQuery.Proofs.Query.Paths
import Mathlib.Data.List.TakeWhile

namespace MarkupQuery.Query

open MarkupQuery.Text

variable {name qualifier localName : String} {word cs rest : List Char}

def IsPlain (name : String) : Prop := plainName name.toList = some (name, [])

instance (name : String) : Decidable (IsPlain name) :=
  inferInstanceAs (Decidable (plainName name.toList = some (name, [])))

theorem IsPlain.eq_cons (h : IsPlain name) : ∃ c cs, name.toList = c :: cs ∧
    isNameStart c = true ∧ ∀ x ∈ cs, isNameChar x = true := by
  unfold IsPlain at h
  cases hname : name.toList with
  | nil => simp [hname, plainName] at h
  | cons c cs =>
    rw [hname, plainName] at h
    split at h
    · rename_i hc
      have hrest := (Prod.mk.inj (Option.some.inj h)).2
      exact ⟨c, cs, rfl, hc, List.dropWhile_eq_nil_iff.mp hrest⟩
    · cases h

/-- No node type is a qualified name. -/
theorem isNodeTypeName_of_colon (h : ':' ∈ name.toList) : isNodeTypeName name = false := by
  rw [isNodeTypeName, List.any_eq_false]
  intro entry hentry heq
  have hnone : ∀ entry ∈ nodeTypeNames, ':' ∉ entry.2.toList := by decide
  exact hnone entry hentry (eq_of_beq heq ▸ h)

theorem isPlain_of_eq_cons {c : Char} (hname : name.toList = c :: cs) (hc : isNameStart c = true)
    (hcs : ∀ x ∈ cs, isNameChar x = true) : IsPlain name := by
  have htake : cs.takeWhile isNameChar = cs := List.takeWhile_eq_self_iff.mpr hcs
  rw [IsPlain, hname, plainName, if_pos hc, htake, List.dropWhile_eq_nil_iff.mpr hcs, ← hname,
    String.ofList_toList]

theorem IsPlain.isNameChar (h : IsPlain name) : ∀ c ∈ name.toList, isNameChar c = true := by
  obtain ⟨c, cs, hname, hc, hcs⟩ := h.eq_cons
  rw [hname]
  exact List.forall_mem_cons.mpr ⟨isNameChar_of_isNameStart hc, hcs⟩

theorem IsPlain.head (h : IsPlain name) (rest : List Char) :
    ∃ c, (name.toList ++ rest).head? = some c ∧ isNameStart c = true := by
  obtain ⟨c, cs, hname, hc, -⟩ := h.eq_cons
  exact ⟨c, by simp [hname], hc⟩

theorem IsPlain.head_ne (h : IsPlain name) {x : Char} (hx : isNameStart x = false)
    (rest : List Char) : (name.toList ++ rest).head? ≠ some x := by
  obtain ⟨c, hhead, hc⟩ := h.head rest
  rw [hhead]
  rintro he
  obtain rfl := Option.some.inj he
  simp [hx] at hc

theorem plainName_append (h : IsPlain name) (hr : ∀ c ∈ rest.head?, isNameChar c = false) :
    plainName (name.toList ++ rest) = some (name, rest) := by
  obtain ⟨c, cs, hname, hc, hcs⟩ := h.eq_cons
  have hrest : rest.takeWhile isNameChar = [] ∧ rest.dropWhile isNameChar = rest := by
    cases rest with
    | nil => exact ⟨rfl, rfl⟩
    | cons x rest => simp [hr x rfl]
  rw [hname, List.cons_append, plainName, if_pos hc, List.takeWhile_append_of_pos hcs,
    List.dropWhile_append_of_pos hcs, hrest.1, hrest.2, List.append_nil, ← hname,
    String.ofList_toList]

/-- A word of name characters that a text with a name begins with ends inside or at the end of the
name. -/
theorem suffix_of_word (hw : ∀ c ∈ word, isNameChar c = true)
    (hr : ∀ c ∈ rest.head?, isNameChar c = false) {after : List Char}
    (h : cs ++ rest = word ++ after) : ∃ suffix, after = suffix ++ rest ∧ suffix <:+ cs := by
  rcases List.append_eq_append_iff.mp h with ⟨more, rfl, hrest⟩ | ⟨suffix, rfl, rfl⟩
  · cases more with
    | nil => exact ⟨[], hrest.symm, List.nil_suffix⟩
    | cons c more =>
      have hc : isNameChar c = false := hr c (by simp [hrest])
      simp [hw c (by simp)] at hc
  · exact ⟨suffix, rfl, List.suffix_append _ _⟩

def areNames {α : Type} (entries : List (α × String)) : Bool :=
  entries.all fun entry => entry.2.toList.all isNameChar

/-- What follows one of some words at the start of a name is the end of the name. -/
theorem suffix_of_oneOf {α : Type} {entries : List (α × String)} (he : areNames entries = true)
    (hr : ∀ c ∈ rest.head?, isNameChar c = false) {a : α} {after : List Char}
    (h : (entries.findSome? fun (a, name) => Reader.map (fun _ => a) (.word name) (cs ++ rest)) =
      some (a, after)) : ∃ suffix, after = suffix ++ rest ∧ suffix <:+ cs := by
  obtain ⟨entry, hentry, hread⟩ := List.exists_of_findSome?_eq_some h
  obtain ⟨u, hword, -⟩ := map_eq_some.mp hread
  have hchars : ∀ c ∈ entry.2.toList, isNameChar c = true :=
    List.all_eq_true.mp (List.all_eq_true.mp he entry hentry)
  exact suffix_of_word hchars hr (eq_append_of_word hword)

/-- The text behind a name does not make a node type or an axis of it. -/
structure Follows (rest : List Char) : Prop where
  noNameChar : ∀ c ∈ rest.head?, isNameChar c = false
  noOpen : (skipSpace rest).head? ≠ some '('
  noColons : Reader.word "::" rest = none

theorem skipSpace_of_isNameChar {c : Char} (hc : isNameChar c = true) (s : List Char) :
    skipSpace (c :: s) = c :: s := by
  have hspace : isSpace c = false := by
    cases h : isSpace c with
    | false => rfl
    | true =>
      have hblank := isBlank_of_isNameChar hc
      simp [isBlank_of_isSpace c h] at hblank
  simp [skipSpace, hspace]

/-- A name is no node type, since no parenthesis follows it. -/
theorem typeTest_of_name (hc : ∀ c ∈ cs, isNameChar c = true) (hr : Follows rest) :
    typeTest (cs ++ rest) = none := by
  cases hread : nodeType (cs ++ rest) with
  | none => simp [typeTest, Reader.map, Reader.both, hread]
  | some found =>
    obtain ⟨type, after⟩ := found
    obtain ⟨suffix, rfl, hsuffix⟩ := suffix_of_oneOf (by decide) hr.noNameChar hread
    have hopen : Reader.spaced (.char '(') (suffix ++ rest) = none := by
      refine spaced_char_of_head_ne ?_
      cases suffix with
      | nil => exact hr.noOpen
      | cons x suffix =>
        have hx := hc x (hsuffix.subset List.mem_cons_self)
        rw [List.cons_append, skipSpace_of_isNameChar hx]
        rintro he
        obtain rfl := Option.some.inj he
        exact absurd hx (by decide)
    simp [typeTest, Reader.map, Reader.both, hread, hopen]

/-- A name is no axis, since no two colons follow it. -/
theorem axis_of_name (hc : ∀ c ∈ cs, isNameChar c = true) (hr : Follows rest) :
    axis (cs ++ rest) = none := by
  cases hread : axisName (cs ++ rest) with
  | none => simp [axis, Reader.map, Reader.both, hread]
  | some found =>
    obtain ⟨axis, after⟩ := found
    obtain ⟨suffix, rfl, hsuffix⟩ := suffix_of_oneOf (by decide) hr.noNameChar hread
    have hcolons : Reader.word "::" (suffix ++ rest) = none := by
      cases suffix with
      | nil => exact hr.noColons
      | cons x suffix =>
        have hx := hc x (hsuffix.subset List.mem_cons_self)
        refine word_of_head_ne (show "::".toList.head? = some ':' from rfl) ?_
        rintro he
        obtain rfl := Option.some.inj he
        exact absurd hx (by decide)
    simp [Query.axis, Reader.map, Reader.both, hread, hcolons]

theorem follows_nil : Follows [] := ⟨by simp, by simp [skipSpace], rfl⟩

theorem follows_cons {c : Char} (hc : c = '[' ∨ c = '=' ∨ c = ',' ∨ c = ')' ∨ c = ']')
    (s : List Char) : Follows (c :: s) := by
  have hword : Reader.word "::" (c :: s) = none := by
    refine word_of_head_ne (show "::".toList.head? = some ':' from rfl) ?_
    rcases hc with rfl | rfl | rfl | rfl | rfl <;> simp
  refine ⟨?_, ?_, hword⟩
  · rcases hc with rfl | rfl | rfl | rfl | rfl <;> simp <;> decide
  · rcases hc with rfl | rfl | rfl | rfl | rfl <;> simp [skipSpace, isSpace]

theorem follows_colon {s : List Char} (hs : s.head? ≠ some ':') : Follows (':' :: s) := by
  refine ⟨by simp; decide, by simp [skipSpace, isSpace], ?_⟩
  cases s with
  | nil => rfl
  | cons c s =>
    have hc : ':' ≠ c := by simpa [eq_comm] using hs
    simp [Reader.word, afterStart?, hc]

structure TestText (text : List Char) (test : NodeTest) : Prop where
  test : ∀ rest, Follows rest → rest.head? ≠ some ':' →
    nodeTest (text ++ rest) = some (test, rest)
  noAxis : ∀ rest, Follows rest → axis (text ++ rest) = none
  head : ∃ c ∈ text.head?, isNameStart c = true ∨ c = '*'

theorem testText_any : TestText ['*'] .any where
  test _ _ _ := rfl
  noAxis rest _ := by
    have hnone : axisName ('*' :: rest) = none :=
      oneOf_eq_none (word_eq_none_of_names (by decide) (by simp; decide))
    simp [axis, Reader.map, Reader.both, hnone]
  head := ⟨'*', rfl, .inr rfl⟩

theorem IsPlain.no_star (h : IsPlain name) (rest : List Char) :
    Reader.char '*' (name.toList ++ rest) = none :=
  char_of_head_ne (h.head_ne (by decide) rest)

theorem testText_name (h : IsPlain name) : TestText name.toList (.name none name) where
  test rest hr hcolon := by
    have hplain := plainName_append h hr.noNameChar
    have hword : Reader.word ":*" rest = none :=
      word_of_head_ne (show ":*".toList.head? = some ':' from rfl) hcolon
    have hname : qualifiedName (name.toList ++ rest) = some ((none, name), rest) :=
      qualifiedName_of_plain hplain fun c hc he => hcolon (he ▸ hc)
    simp [nodeTest, Reader.orElse, Reader.map, Reader.both, anyInTest, h.no_star,
      typeTest_of_name h.isNameChar hr, hplain, hword, hname]
  noAxis rest hr := axis_of_name h.isNameChar hr
  head := by
    obtain ⟨c, hc, hstart⟩ := h.head []
    rw [List.append_nil] at hc
    exact ⟨c, hc, .inl hstart⟩

theorem head_append_colon (h : IsPlain qualifier) (s : List Char) :
    ∃ c ∈ (qualifier.toList ++ ':' :: s).head?, isNameStart c = true ∨ c = '*' := by
  obtain ⟨c, hc, hstart⟩ := h.head (':' :: s)
  exact ⟨c, hc, .inl hstart⟩

theorem testText_qualified (hq : IsPlain qualifier) (hl : IsPlain localName) :
    TestText (qualifier.toList ++ ':' :: localName.toList) (.name (some qualifier) localName) where
  test rest hr _ := by
    have hcolon := follows_colon (hl.head_ne (x := ':') (by decide) rest)
    have hplain := plainName_append hq hcolon.noNameChar
    have hlocal := plainName_append hl hr.noNameChar
    have hword : Reader.word ":*" (':' :: (localName.toList ++ rest)) = none := by
      obtain ⟨c, hc, hstart⟩ := hl.head rest
      obtain ⟨s, hs⟩ := List.head?_eq_some_iff.mp hc
      have hne : '*' ≠ c := by
        rintro rfl
        exact absurd hstart (by decide)
      simp [Reader.word, afterStart?, hs, hne]
    have hname : qualifiedName (qualifier.toList ++ ':' :: (localName.toList ++ rest)) =
        some ((some qualifier, localName), rest) := by
      rw [qualifiedName_of_colon hplain, hlocal]
      rfl
    rw [List.append_assoc, List.cons_append]
    simp [nodeTest, Reader.orElse, Reader.map, Reader.both, anyInTest, hq.no_star,
      typeTest_of_name hq.isNameChar hcolon, hplain, hword, hname]
  noAxis rest _ := by
    rw [List.append_assoc]
    exact axis_of_name hq.isNameChar (follows_colon (hl.head_ne (x := ':') (by decide) rest))
  head := head_append_colon hq _

theorem testText_anyIn (hq : IsPlain qualifier) :
    TestText (qualifier.toList ++ [':', '*']) (.anyIn qualifier) where
  test rest _ _ := by
    have hcolon : Follows (':' :: '*' :: rest) := follows_colon (by simp)
    have hplain := plainName_append hq hcolon.noNameChar
    have hword : Reader.word ":*" (':' :: '*' :: rest) = some ((), rest) := rfl
    rw [List.append_assoc]
    simp [nodeTest, Reader.orElse, Reader.map, Reader.both, anyInTest, hq.no_star,
      typeTest_of_name hq.isNameChar hcolon, hplain, hword]
  noAxis rest _ := by
    rw [List.append_assoc]
    exact axis_of_name hq.isNameChar (follows_colon (by simp))
  head := head_append_colon hq _

/-- A step that begins with its node test is a step to children. -/
theorem stepHead_of_nodeTest {s t : List Char} {test : NodeTest} {c : Char} (hc : s.head? = some c)
    (hstart : isNameStart c = true ∨ c = '*') (haxis : axis s = none)
    (htest : nodeTest s = some (test, t)) : stepHead s = some ((.child, test), t) := by
  have hne : ∀ x, isNameStart x = false → x ≠ '*' → s.head? ≠ some x := by
    rintro x hx hstar he
    obtain rfl := Option.some.inj (hc.symm.trans he)
    rcases hstart with hstart | hstart
    · simp [hx] at hstart
    · exact hstar hstart
  have htwo : Reader.word ".." s = none :=
    word_of_head_ne (show "..".toList.head? = some '.' from rfl) (hne '.' (by decide) (by decide))
  have hone : Reader.word "." s = none :=
    word_of_head_ne (show ".".toList.head? = some '.' from rfl) (hne '.' (by decide) (by decide))
  have hat : Reader.char '@' s = none := char_of_head_ne (hne '@' (by decide) (by decide))
  simp [stepHead, Reader.orElse, Reader.map, Reader.both, Reader.optional, htwo, hone, hat, haxis,
    htest]

/-- An element is named without an axis. -/
theorem TestText.stepHead {text : List Char} {test : NodeTest} (h : TestText text test)
    (hr : Follows rest) (hcolon : rest.head? ≠ some ':') :
    Query.stepHead (text ++ rest) = some ((.child, test), rest) := by
  obtain ⟨c, hc, hstart⟩ := h.head
  obtain ⟨cs, rfl⟩ := List.head?_eq_some_iff.mp hc
  exact stepHead_of_nodeTest rfl hstart (h.noAxis rest hr) (h.test rest hr hcolon)

theorem stepHead_at_of_nodeTest {s t : List Char} {test : NodeTest}
    (htest : nodeTest s = some (test, t)) : stepHead ('@' :: s) = some ((.attribute, test), t) := by
  have htwo : Reader.word ".." ('@' :: s) = none := rfl
  have hone : Reader.word "." ('@' :: s) = none := rfl
  have hat : Reader.char '@' ('@' :: s) = some ((), s) := rfl
  simp [stepHead, Reader.orElse, Reader.map, Reader.both, htwo, hone, hat, htest]

/-- An attribute is named behind an at sign. -/
theorem TestText.stepHead_at {text : List Char} {test : NodeTest} (h : TestText text test)
    (hr : Follows rest) (hcolon : rest.head? ≠ some ':') :
    Query.stepHead ('@' :: text ++ rest) = some ((.attribute, test), rest) :=
  stepHead_at_of_nodeTest (h.test rest hr hcolon)

end MarkupQuery.Query
