import MarkupQuery.Proofs.Xml.Names
import MarkupQuery.Xml.Content

namespace MarkupQuery.Xml

open MarkupQuery.Text

/-- A value that no character of is normalized. -/
def IsSteady (value : String) : Prop := ∀ c ∈ value.toList, isChar c = true ∧ spaceFor c = c

structure Written.Plain (a : Written) : Prop where
  name : a.name.Legible
  value : IsSteady a.value

/-- An attribute that can be read, though its value may be normalized. -/
structure Written.Readable (a : Written) : Prop where
  name : a.name.Legible
  value : ∀ c ∈ a.value.toList, isChar c = true

def Written.normalized (a : Written) : Written :=
  { a with value := String.ofList (normalizedValue a.value.toList) }

def Written.chars (a : Written) : List Char :=
  ' ' :: (a.name.chars ++ '=' :: '"' :: (a.value.toList.flatMap escapeInQuotes ++ ['"']))

def TagEnd.chars : TagEnd → List Char
  | .missing => []
  | .empty => ['/', '>']
  | .content => ['>']

def StartTag.chars (tag : StartTag) : List Char :=
  '<' :: (tag.name.chars ++ tag.attributes.flatMap Written.chars ++ tag.ending.chars)

structure StartTag.Plain (tag : StartTag) : Prop where
  name : tag.name.Legible
  attributes : ∀ a ∈ tag.attributes, a.Plain
  ending : tag.ending ≠ .missing

structure StartTag.Readable (tag : StartTag) : Prop where
  name : tag.name.Legible
  attributes : ∀ a ∈ tag.attributes, a.Readable
  ending : tag.ending ≠ .missing

def StartTag.normalized (tag : StartTag) : StartTag :=
  { tag with attributes := tag.attributes.map Written.normalized }

theorem Written.Plain.readable {a : Written} (h : a.Plain) : a.Readable :=
  ⟨h.name, fun c hc => (h.value c hc).1⟩

theorem Written.Plain.normalized_eq {a : Written} (h : a.Plain) : a.normalized = a := by
  rw [Written.normalized, normalizedValue_of_steady fun c hc => (h.value c hc).2,
    String.ofList_toList]

theorem StartTag.Plain.readable {tag : StartTag} (h : tag.Plain) : tag.Readable :=
  ⟨h.name, fun a ha => (h.attributes a ha).readable, h.ending⟩

theorem StartTag.Plain.normalized_eq {tag : StartTag} (h : tag.Plain) : tag.normalized = tag := by
  rw [StartTag.normalized, List.map_congr_left fun a ha => (h.attributes a ha).normalized_eq,
    List.map_id']

variable {scope : Scope} {a : Written} {tag : StartTag} {name : QName} {rest : List Char}

/-- What is written between quotes ends neither the value nor the reading of it. -/
theorem escapeInQuotes_mem {c x : Char} (hc : isChar c = true) (hx : x ∈ escapeInQuotes c) :
    x ≠ '"' ∧ (isChar x && x != '<') = true := by
  have hall : (escapeInQuotes c).all (fun x => x != '"' && (isChar x && x != '<')) = true := by
    unfold escapeInQuotes
    split
    iterate 5 · rfl
    · simp_all
  simpa using List.all_eq_true.mp hall x hx

theorem attributeValue?_escaped (hn : scope.nested = false) (references : Nat) (value : List Char) :
    scope.attributeValue? references (value.flatMap escapeInQuotes) =
      some (String.ofList (normalizedValue value), references) := by
  obtain ⟨pieces, hpieces, hgives⟩ := pieces?_escaped escaping_inQuotes value
  simp only [Scope.attributeValue?, hpieces, hn, Option.bind_eq_bind, Option.bind_some,
    attributeText_of_gives hgives]
  rfl

theorem attribute?_written (h : a.name.Legible) (value : List Char) :
    attribute? (a.name.chars ++ '=' :: '"' :: value) =
      (quoted? (fun c => isChar c && c != '<') ('"' :: value)).map fun (inside, rest) =>
        (a.name, inside, rest) := by
  have hequals : skipSpace ('=' :: '"' :: value) = '=' :: '"' :: value :=
    skipSpace_of_head (by simp; decide)
  have hquote : skipSpace ('"' :: value) = '"' :: value := skipSpace_of_head (by simp; decide)
  rw [attribute?, qualifiedName?_chars h (by simp; decide)]
  simp only [Option.bind_eq_bind, Option.bind_some, hequals, hquote]
  cases quoted? (fun c => isChar c && c != '<') ('"' :: value) <;> rfl

theorem attribute?_chars (h : a.Readable) (rest : List Char) :
    attribute? (a.name.chars ++ '=' :: '"' :: (a.value.toList.flatMap escapeInQuotes ++
      '"' :: rest)) = some (a.name, a.value.toList.flatMap escapeInQuotes, rest) := by
  have hinside : ∀ x ∈ a.value.toList.flatMap escapeInQuotes,
      x ≠ '"' ∧ (isChar x && x != '<') = true := by
    intro x hx
    obtain ⟨c, hc, hx⟩ := List.mem_flatMap.mp hx
    exact escapeInQuotes_mem (h.value c hc) hx
  rw [attribute?_written h.name, quoted?_exact hinside]
  rfl

/-- A value with a character that markup forbids cannot be read. -/
theorem attribute?_unreadable (h : a.name.Legible) (hv : ¬ ∀ c ∈ a.value.toList, isChar c = true)
    (rest : List Char) : attribute? (a.name.chars ++ '=' :: '"' ::
      (a.value.toList.flatMap escapeInQuotes ++ '"' :: rest)) = none := by
  obtain ⟨c, more, hmore, hc⟩ : ∃ c more, a.value.toList.dropWhile isChar = c :: more ∧
      isChar c = false := by
    cases hdrop : a.value.toList.dropWhile isChar with
    | nil => exact absurd (List.dropWhile_eq_nil_iff.mp hdrop) hv
    | cons c more =>
      have hhead := List.head?_dropWhile_not isChar a.value.toList
      exact ⟨c, more, rfl, by simpa [hdrop] using hhead⟩
  have hinside : ∀ x ∈ (a.value.toList.takeWhile isChar).flatMap escapeInQuotes,
      x ≠ '"' ∧ (isChar x && x != '<') = true := by
    intro x hx
    obtain ⟨c, hc, hx⟩ := List.mem_flatMap.mp hx
    exact escapeInQuotes_mem (List.mem_takeWhile_imp hc) hx
  have hself : escapeInQuotes c = [c] := by
    unfold escapeInQuotes
    split <;> first | rfl | cases hc
  have hsplit : a.value.toList.flatMap escapeInQuotes ++ '"' :: rest =
      (a.value.toList.takeWhile isChar).flatMap escapeInQuotes ++
        c :: (more.flatMap escapeInQuotes ++ '"' :: rest) := by
    conv_lhs => rw [← List.takeWhile_append_dropWhile (p := isChar) (l := a.value.toList), hmore]
    simp [hself]
  have hne : c ≠ '"' := by
    rintro rfl
    cases hc
  rw [attribute?_written h, hsplit, quoted?_bad hinside ⟨hne, by simp [hc]⟩]
  rfl

/-- A name does not begin with a space or with a character that has a meaning after `<`. -/
theorem head_ne_of_starts {c x : Char} (h : isNameStart c = true ∨ c = ':')
    (hx : isNameStart x = false ∧ x ≠ ':') : c ≠ x := by
  rintro rfl
  simp_all

theorem isSpace_of_starts {c : Char} (h : isNameStart c = true ∨ c = ':') : isSpace c = false := by
  have hne := fun x hx => beq_eq_false_iff_ne.mpr (head_ne_of_starts (x := x) h hx)
  rw [isSpace, hne ' ' (by decide), hne '\t' (by decide), hne '\r' (by decide),
    hne '\n' (by decide)]
  rfl

theorem attributesUpTo_end (fuel references : Nat) {ending : TagEnd} (he : ending ≠ .missing)
    (rest : List Char) :
    attributesUpTo scope (fuel + 1) references (ending.chars ++ rest) =
      some ([], ending, rest, references) := by
  cases ending with
  | missing => exact absurd rfl he
  | empty => rfl
  | content => rfl

/-- In front of the end of a tag comes a space and an attribute. -/
theorem attributesUpTo_succ (fuel references : Nat) (h : a.name.Legible) (rest : List Char) :
    attributesUpTo scope (fuel + 1) references (a.chars ++ rest) =
      (attribute? (a.name.chars ++ '=' :: '"' :: (a.value.toList.flatMap escapeInQuotes ++
        '"' :: rest))).bind fun (name, value, rest) =>
          (scope.attributeValue? references value).bind fun (value, references) =>
            (attributesUpTo scope fuel references rest).map fun (more, ending, rest, references) =>
              (⟨name, value⟩ :: more, ending, rest, references) := by
  obtain ⟨written, hw⟩ : ∃ written, a.name.chars ++ '=' :: '"' ::
      (a.value.toList.flatMap escapeInQuotes ++ '"' :: rest) = written := ⟨_, rfl⟩
  obtain ⟨c, hc, hstart⟩ := head_chars h
    ('=' :: '"' :: (a.value.toList.flatMap escapeInQuotes ++ '"' :: rest))
  have hchars : a.chars ++ rest = ' ' :: written := by simp [Written.chars, ← hw]
  rw [hw] at hc ⊢
  -- what follows the space is a name, so neither an end of the tag nor more space
  have hskip : skipSpace written = written := skipSpace_of_head fun x hx => by
    obtain rfl := Option.mem_unique hc hx
    exact isSpace_of_starts hstart
  have hspace : skipSpace (' ' :: written) = written := hskip
  have hblank : spaces? (' ' :: written) = some written := congrArg some hskip
  rw [hchars, attributesUpTo, hspace]
  · split
    · exact absurd (Option.some.inj hc).symm (head_ne_of_starts hstart (by decide))
    · exact absurd (Option.some.inj hc).symm (head_ne_of_starts hstart (by decide))
    · simp only [hblank, Option.bind_eq_bind, Option.bind_some, Option.pure_def,
        Option.map_eq_bind, Function.comp_def]
  · exact List.cons_ne_nil _ _

theorem attributesUpTo_cons (hn : scope.nested = false) (fuel references : Nat) (h : a.Readable)
    (rest : List Char) :
    attributesUpTo scope (fuel + 1) references (a.chars ++ rest) =
      (attributesUpTo scope fuel references rest).map fun (more, ending, rest, references) =>
        (a.normalized :: more, ending, rest, references) := by
  simp only [attributesUpTo_succ fuel references h.name, attribute?_chars h,
    attributeValue?_escaped hn references, Option.bind_some]
  rfl

/-- Attributes are read up to the end of their tag. -/
theorem attributesUpTo_chars (hn : scope.nested = false) (references : Nat)
    {attributes : List Written} (h : ∀ a ∈ attributes, a.Readable) {ending : TagEnd}
    (he : ending ≠ .missing) (rest : List Char) {fuel : Nat} (hf : attributes.length < fuel) :
    attributesUpTo scope fuel references
        (attributes.flatMap Written.chars ++ (ending.chars ++ rest)) =
      some (attributes.map Written.normalized, ending, rest, references) := by
  induction attributes generalizing fuel with
  | nil =>
    obtain ⟨fuel, rfl⟩ := Nat.exists_eq_add_of_lt hf
    exact attributesUpTo_end _ references he rest
  | cons a attributes ih =>
    obtain ⟨ha, hrest⟩ := List.forall_mem_cons.mp h
    obtain ⟨fuel, rfl⟩ := Nat.exists_eq_add_of_lt hf
    rw [List.flatMap_cons, List.append_assoc, attributesUpTo_cons hn _ _ ha,
      ih hrest (by simp; omega)]
    rfl

/-- One value that cannot be read is enough for none to be read. -/
theorem attributesUpTo_unreadable (hn : scope.nested = false) (references : Nat)
    {attributes : List Written} (h : ∀ a ∈ attributes, a.name.Legible)
    (hv : ¬ ∀ a ∈ attributes, ∀ c ∈ a.value.toList, isChar c = true) (rest : List Char)
    (fuel : Nat) : attributesUpTo scope fuel references (attributes.flatMap Written.chars ++ rest) =
      none := by
  induction attributes generalizing fuel with
  | nil => simp at hv
  | cons a attributes ih =>
    obtain ⟨ha, hrest⟩ := List.forall_mem_cons.mp h
    cases fuel with
    | zero => rfl
    | succ fuel =>
      rw [List.flatMap_cons, List.append_assoc]
      by_cases hread : ∀ c ∈ a.value.toList, isChar c = true
      · have hothers : ¬ ∀ a ∈ attributes, ∀ c ∈ a.value.toList, isChar c = true := fun hall =>
          hv (List.forall_mem_cons.mpr ⟨hread, hall⟩)
        rw [attributesUpTo_cons hn _ _ ⟨ha, hread⟩, ih hrest hothers]
        rfl
      · rw [attributesUpTo_succ _ _ ha, attribute?_unreadable ha hread]
        rfl

theorem length_le_length_flatMap {α : Type} {f : α → List Char} {l : List α}
    (h : ∀ x ∈ l, f x ≠ []) : l.length ≤ (l.flatMap f).length := by
  induction l with
  | nil => simp
  | cons x l ih =>
    obtain ⟨hx, hl⟩ := List.forall_mem_cons.mp h
    have hpos := List.length_pos_iff.mpr hx
    have hrest := ih hl
    simp only [List.flatMap_cons, List.length_append, List.length_cons]
    omega

/-- The name of a start tag is read in full. -/
theorem qualifiedName?_startTag (h : tag.name.Legible) (he : tag.ending ≠ .missing)
    (rest : List Char) : qualifiedName? (tag.name.chars ++
      (tag.attributes.flatMap Written.chars ++ (tag.ending.chars ++ rest))) =
        some (tag.name, tag.attributes.flatMap Written.chars ++ (tag.ending.chars ++ rest)) := by
  refine qualifiedName?_chars h ?_
  cases tag.attributes with
  | nil =>
    cases hending : tag.ending with
    | missing => exact absurd hending he
    | empty => simp [TagEnd.chars]; decide
    | content => simp [TagEnd.chars]; decide
  | cons a attributes => simp [Written.chars]; decide

theorem startTag?_readable (hn : scope.nested = false) (references : Nat) (h : tag.Readable)
    (rest : List Char) :
    startTag? scope references
        (tag.name.chars ++ (tag.attributes.flatMap Written.chars ++ (tag.ending.chars ++ rest))) =
      some (tag.normalized, rest, references) := by
  have hlength : tag.attributes.length ≤ (tag.attributes.flatMap Written.chars).length :=
    length_le_length_flatMap fun a _ => by simp [Written.chars]
  have hfuel : tag.attributes.length <
      (tag.attributes.flatMap Written.chars ++ (tag.ending.chars ++ rest)).length + 1 := by
    rw [List.length_append]
    omega
  simp only [startTag?, qualifiedName?_startTag h.name h.ending, Option.bind_eq_bind,
    Option.bind_some, attributesUpTo_chars hn references h.attributes h.ending rest hfuel]
  rfl

theorem startTag?_unreadable (hn : scope.nested = false) (references : Nat)
    (h : tag.name.Legible) (he : tag.ending ≠ .missing) (ha : ∀ a ∈ tag.attributes, a.name.Legible)
    (hv : ¬ ∀ a ∈ tag.attributes, ∀ c ∈ a.value.toList, isChar c = true) (rest : List Char) :
    startTag? scope references (tag.name.chars ++
      (tag.attributes.flatMap Written.chars ++ (tag.ending.chars ++ rest))) = none := by
  simp only [startTag?, qualifiedName?_startTag h he, Option.bind_eq_bind, Option.bind_some,
    attributesUpTo_unreadable hn references ha hv, Option.bind_none]

theorem startTag?_chars (hn : scope.nested = false) (references : Nat) (h : tag.Plain)
    (rest : List Char) :
    startTag? scope references
        (tag.name.chars ++ (tag.attributes.flatMap Written.chars ++ (tag.ending.chars ++ rest))) =
      some (tag, rest, references) := by
  rw [startTag?_readable hn references h.readable, h.normalized_eq]

theorem endTag?_chars (h : name.Legible) (rest : List Char) :
    endTag? (name.chars ++ '>' :: rest) = some (name, rest) := by
  have hend : skipSpace ('>' :: rest) = '>' :: rest := skipSpace_of_head (by simp; decide)
  rw [endTag?, qualifiedName?_chars h (by simp; decide)]
  simp only [Option.bind_eq_bind, Option.bind_some, hend]

end MarkupQuery.Xml
