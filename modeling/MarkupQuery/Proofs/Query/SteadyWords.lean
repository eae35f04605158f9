import MarkupQuery.Proofs.Number.Numerals
import MarkupQuery.Proofs.Query.Steady
import MarkupQuery.Query.Grammar

namespace MarkupQuery.Query

open MarkupQuery.Text MarkupQuery.Page

def isPlain (c : Char) : Bool := !(['\'', '"', '[', '(', ']', ')'].contains c)

/-- A text may stop before this character. -/
def isStop (c : Char) : Bool := isBlank c || c == '|' || c == '/' || c == ')'

/-- A character that leads from inside `depth` brackets to inside `depth'` and at which no text
stops. -/
def Passes (depth depth' : Nat) (c : Char) : Prop :=
  (inside depth).after c = inside depth' ∧ (0 < depth ∨ isStop c = false)

variable {α : Type} {R : Nesting → List Char → List Char → Prop}
  {bound depth depth' : Nat} {s s' : List Char}

theorem after_of_isPlain {c : Char} (hc : isPlain c = true) (depth : Nat) :
    (inside depth).after c = inside depth := by
  simp only [isPlain, List.contains_eq_mem, List.mem_cons, List.not_mem_nil, or_false,
    Bool.not_eq_true', decide_eq_false_iff_not, not_or] at hc
  obtain ⟨h1, h2, h3, h4, h5, h6⟩ := hc
  simp [Nesting.after, h1, h2, h3, h4, h5, h6]

theorem passes_of_isPlain {c : Char} (hc : isPlain c = true)
    (hs : 0 < depth ∨ isStop c = false) : Passes depth depth c :=
  ⟨after_of_isPlain hc depth, hs⟩

theorem passes_open {c : Char} (hc : c = '[' ∨ c = '(') (depth : Nat) :
    Passes depth (depth + 1) c := by
  refine ⟨?_, .inr ?_⟩ <;> rcases hc with rfl | rfl
  · simp [Nesting.after]
  · simp [Nesting.after]
  · decide
  · decide

theorem passes_close {c : Char} (hc : c = ']' ∨ c = ')') (depth : Nat) :
    Passes (depth + 1) depth c := by
  refine ⟨?_, .inl (Nat.succ_pos _)⟩
  rcases hc with rfl | rfl <;> simp [Nesting.after]

theorem isStop_of_stops {c : Char} {r : List Char} (h : Stops (c :: r)) : isStop c = true := by
  unfold isStop
  by_cases hc : isSpace c = true
  · simp [isBlank_of_isSpace c hc]
  · rcases h c (by simp [skipSpace, hc]) with rfl | rfl | rfl | hblank
    · rfl
    · rfl
    · rfl
    · simp [hblank]

/-- A text that stops does not go on with a character that passes. -/
theorem not_stops_of_passes {c : Char} {r : List Char} (hc : Passes 0 depth' c) :
    ¬ Stops (c :: r) := by
  intro h
  have hstop := isStop_of_stops h
  rcases hc.2 with hd | hd
  · exact absurd hd (Nat.lt_irrefl 0)
  · simp [hd] at hstop

namespace Twins

/-- Twins go on with the same passing character, or neither goes on with one. -/
theorem cases_passes (hR : Twins R) (h : R (inside depth) s s') (P : Char → Prop)
    (hP : ∀ c, P c → ∃ depth', Passes depth depth' c) :
    (∃ c r r', s = c :: r ∧ s' = c :: r' ∧ P c ∧ R ((inside depth).after c) r r') ∨
      ((∀ c ∈ s.head?, ¬ P c) ∧ ∀ c ∈ s'.head?, ¬ P c) := by
  rcases hR.cases h with ⟨rfl, rfl⟩ | ⟨c, r, r', rfl, rfl, hr⟩ | ⟨hn, hs, hs', -⟩
  · exact .inr (by simp)
  · by_cases hc : P c
    · exact .inl ⟨c, r, r', rfl, rfl, hc, hr⟩
    · exact .inr (by simpa using hc)
  · obtain rfl : depth = 0 := congrArg Nesting.depth hn
    have hstop : ∀ {t : List Char}, Stops t → ∀ c ∈ t.head?, ¬ P c := by
      intro t ht c hc hp
      obtain ⟨depth', hpass⟩ := hP c hp
      obtain ⟨r, rfl⟩ := List.head?_eq_some_iff.mp hc
      exact not_stops_of_passes hpass ht
    exact .inr ⟨hstop hs, hstop hs'⟩

theorem takeWhile (hR : Twins R) {f : Char → Bool} (hf : ∀ c, f c = true → Passes depth depth c)
    (h : R (inside depth) s s') :
    s.takeWhile f = s'.takeWhile f ∧ R (inside depth) (s.dropWhile f) (s'.dropWhile f) := by
  induction s generalizing s' with
  | nil =>
    rcases hR.cases_passes h (fun c => f c = true) (fun c hc => ⟨depth, hf c hc⟩) with
      ⟨_, _, _, hs, -⟩ | ⟨-, hs'⟩
    · simp at hs
    · cases s' with
      | nil => exact ⟨rfl, h⟩
      | cons c r =>
        have hc : f c = false := by simpa using hs' c rfl
        simpa [hc] using h
  | cons x s ih =>
    rcases hR.cases_passes h (fun c => f c = true) (fun c hc => ⟨depth, hf c hc⟩) with
      ⟨c, r, r', hs, rfl, hc, hr⟩ | ⟨hs, hs'⟩
    · obtain ⟨rfl, rfl⟩ := List.cons.inj hs
      rw [(hf x hc).1] at hr
      obtain ⟨htake, hdrop⟩ := ih hr
      simp only [List.takeWhile_cons, List.dropWhile_cons, hc, if_true, htake, true_and]
      exact hdrop
    · have hx : f x = false := by simpa using hs x rfl
      cases s' with
      | nil => simpa [hx] using h
      | cons c r =>
        have hc : f c = false := by simpa using hs' c rfl
        simpa [hx, hc] using h

/-- A quote is closed at the same place in both texts, or in neither. -/
theorem quoted (hR : Twins R) {q : Char} (h : R ⟨depth, some q⟩ s s') :
    s.takeWhile (· != q) = s'.takeWhile (· != q) ∧
      ((s.dropWhile (· != q) = [] ∧ s'.dropWhile (· != q) = []) ∨
        ∃ r r', s.dropWhile (· != q) = q :: r ∧ s'.dropWhile (· != q) = q :: r' ∧
          R (inside depth) r r') := by
  induction s generalizing s' with
  | nil =>
    rcases hR.cases h with ⟨-, rfl⟩ | ⟨_, _, _, hs, -⟩ | ⟨hn, -⟩
    · simp
    · simp at hs
    · simp at hn
  | cons x s ih =>
    rcases hR.cases h with ⟨hs, -⟩ | ⟨c, r, r', hs, rfl, hr⟩ | ⟨hn, -⟩
    · simp at hs
    · obtain ⟨rfl, rfl⟩ := List.cons.inj hs
      by_cases hq : x = q
      · subst hq
        simp only [Nesting.after, beq_self_eq_true, if_true] at hr
        simpa using hr
      · simp only [Nesting.after, beq_iff_eq, hq, if_false] at hr
        simpa [hq] using ih hr
    · simp at hn

end Twins

theorem steady_char (hR : Twins R) {c : Char} (hc : Passes depth depth' c) :
    Steady R bound 1 depth depth' (.char c) (.char c) := by
  intro s s' _ _ h
  rcases hR.cases_passes h (· = c) (fun d hd => ⟨depth', hd ▸ hc⟩) with
    ⟨_, r, r', rfl, rfl, rfl, hr⟩ | ⟨hs, hs'⟩
  · rw [hc.1] at hr
    simpa [Reader.char] using Same.some hr (Nat.le_refl _) (Nat.le_refl _)
  · have hnone : ∀ {t : List Char}, (∀ d ∈ t.head?, ¬ d = c) → Reader.char c t = none := by
      intro t ht
      cases t with
      | nil => rfl
      | cons d r => simp [Reader.char, ht d rfl]
    rw [hnone hs, hnone hs']
    exact .none

/-- A word is read character by character. -/
theorem word_cons (c : Char) (cs s : List Char) :
    Reader.word (String.ofList (c :: cs)) s =
      (Reader.both (.char c) (.word (String.ofList cs)) s).map fun (_, rest) => ((), rest) := by
  cases s with
  | nil => simp [Reader.word, Reader.both, Reader.char, afterStart?]
  | cons d s =>
    simp only [Reader.word, Reader.both, Reader.char, afterStart?, String.toList_ofList]
    by_cases hd : d = c
    · subst hd
      by_cases hp : cs <+: s <;> simp [hp]
    · simp [hd, Ne.symm hd]

/-- A word is read alike if each of its characters is. -/
theorem steady_wordOf {text : String}
    (ht : ∀ c ∈ text.toList, ∀ bound, Steady R bound 1 depth depth (.char c) (.char c)) :
    Steady R bound text.toList.length depth depth (.word text) (.word text) := by
  obtain ⟨cs, rfl⟩ : ∃ cs, text = String.ofList cs := ⟨text.toList, by simp⟩
  rw [String.toList_ofList] at *
  induction cs generalizing bound with
  | nil =>
    intro s s' _ _ h
    simpa [Reader.word, afterStart?] using Same.some h (Nat.le_refl _) (Nat.le_refl _)
  | cons c cs ih =>
    obtain ⟨hc, hcs⟩ := List.forall_mem_cons.mp ht
    intro s s' hl hl' h
    rw [word_cons, word_cons, List.length_cons, Nat.add_comm]
    exact Agrees.map (fun _ => ()) (.both (hc bound) (ih hcs)) s s' hl hl' h

theorem steady_word (hR : Twins R) {text : String}
    (ht : ∀ c ∈ text.toList, Passes depth depth c) :
    Steady R bound text.toList.length depth depth (.word text) (.word text) :=
  steady_wordOf fun c hc _ => steady_char hR (ht c hc)

def blankCodes : List Nat := [9, 10, 11, 12, 13, 32, 0x85, 0xA0, 0x1680, 0x2000, 0x2001, 0x2002,
  0x2003, 0x2004, 0x2005, 0x2006, 0x2007, 0x2008, 0x2009, 0x200A, 0x2028, 0x2029, 0x202F, 0x205F,
  0x3000]

theorem mem_blankCodes {c : Char} (hc : isBlank c = true) : c.toNat ∈ blankCodes := by
  simp only [isBlank, Bool.or_eq_true, Bool.and_eq_true, decide_eq_true_eq, beq_iff_eq] at hc
  simp only [blankCodes, List.mem_cons, List.not_mem_nil, or_false]
  omega

theorem isNameChar_of_mem_blankCodes :
    ∀ n ∈ blankCodes, isNameChar (Char.ofNat n) = false := by decide +kernel

theorem isBlank_of_isNameChar {c : Char} (hc : isNameChar c = true) : isBlank c = false := by
  cases hb : isBlank c with
  | false => rfl
  | true =>
    have hname := isNameChar_of_mem_blankCodes c.toNat (mem_blankCodes hb)
    rw [Char.ofNat_toNat, hc] at hname
    cases hname

theorem passes_of_isNameChar {c : Char} (hc : isNameChar c = true) (depth : Nat) :
    Passes depth depth c := by
  have hne : ∀ d, isNameChar d = false → c ≠ d := by
    rintro d hd rfl
    simp [hc] at hd
  refine passes_of_isPlain ?_ (.inr ?_)
  · simp [isPlain, hne '\'' (by decide), hne '"' (by decide), hne '[' (by decide),
      hne '(' (by decide), hne ']' (by decide), hne ')' (by decide)]
  · simp [isStop, isBlank_of_isNameChar hc, hne '|' (by decide), hne '/' (by decide),
      hne ')' (by decide)]

theorem isNameChar_of_isNameStart {c : Char} (hc : isNameStart c = true) : isNameChar c = true := by
  simp only [isNameStart, Bool.or_eq_true] at hc
  rcases hc with hc | hc <;> simp [isNameChar, isLetterOrNumeral, hc]

theorem steady_plainName (hR : Twins R) :
    Steady R bound 1 depth depth plainName plainName := by
  intro s s' _ _ h
  have hpass : ∀ c, isNameStart c = true → ∃ depth', Passes depth depth' c := fun c hc =>
    ⟨depth, passes_of_isNameChar (isNameChar_of_isNameStart hc) depth⟩
  rcases hR.cases_passes h (isNameStart · = true) hpass with
    ⟨c, r, r', rfl, rfl, hc, hr⟩ | ⟨hs, hs'⟩
  · rw [(passes_of_isNameChar (isNameChar_of_isNameStart hc) depth).1] at hr
    obtain ⟨htake, hdrop⟩ := hR.takeWhile (fun d hd => passes_of_isNameChar hd depth) hr
    simp only [plainName, hc, if_true, htake]
    refine .some hdrop ?_ ?_
    · exact Nat.succ_le_succ (List.dropWhile_sublist _).length_le
    · exact Nat.succ_le_succ (List.dropWhile_sublist _).length_le
  · have hnone : ∀ {t : List Char}, (∀ c ∈ t.head?, ¬ isNameStart c = true) →
        plainName t = none := by
      intro t ht
      cases t with
      | nil => rfl
      | cons c r => simp [plainName, ht c rfl]
    rw [hnone hs, hnone hs']
    exact .none

/-- Inside brackets no text stops. -/
theorem Twins.cases_inside (hR : Twins R) (h : R (inside (depth + 1)) s s') :
    (s = [] ∧ s' = []) ∨
      ∃ c r r', s = c :: r ∧ s' = c :: r' ∧ R ((inside (depth + 1)).after c) r r' := by
  rcases hR.cases h with hnil | hcons | ⟨hn, -⟩
  · exact .inl hnil
  · exact .inr hcons
  · simp [inside] at hn

theorem stringLiteral_of_stops (h : Stops s) : stringLiteral s = none := by
  cases s with
  | nil => rfl
  | cons q r =>
    have hq : ¬ (q = '\'' ∨ q = '"') := by
      rintro (rfl | rfl)
      · exact absurd (isStop_of_stops h) (by decide)
      · exact absurd (isStop_of_stops h) (by decide)
    simp [stringLiteral, hq]

theorem steady_stringLiteral (hR : Twins R) :
    Steady R bound 0 depth depth stringLiteral stringLiteral := by
  intro s s' _ _ h
  rcases hR.cases h with ⟨rfl, rfl⟩ | ⟨q, r, r', rfl, rfl, hr⟩ | ⟨-, hs, hs', -⟩
  · exact .none
  · by_cases hq : q = '\'' ∨ q = '"'
    · have hafter : (inside depth).after q = ⟨depth, some q⟩ := by
        rcases hq with rfl | rfl <;> simp [Nesting.after]
      rw [hafter] at hr
      obtain ⟨htake, ⟨hdrop, hdrop'⟩ | ⟨t, t', hdrop, hdrop', ht⟩⟩ := hR.quoted hr
      · simp only [stringLiteral, hq, if_true, hdrop, hdrop']
        exact .none
      · have hl := (List.dropWhile_sublist (l := r) (· != q)).length_le
        have hl' := (List.dropWhile_sublist (l := r') (· != q)).length_le
        simp only [stringLiteral, hq, if_true, hdrop, hdrop', htake]
        rw [hdrop, List.length_cons] at hl
        rw [hdrop', List.length_cons] at hl'
        refine .some ht ?_ ?_
        · rw [List.length_cons]
          omega
        · rw [List.length_cons]
          omega
    · simp only [stringLiteral, hq, if_false]
      exact .none
  · rw [stringLiteral_of_stops hs, stringLiteral_of_stops hs']
    exact .none

theorem isNameChar_of_isDigit {c : Char} (hc : c.isDigit = true) : isNameChar c = true := by
  have hlt : c.toNat < 128 := by
    simp only [Char.isDigit, Bool.and_eq_true, decide_eq_true_eq] at hc
    exact Nat.lt_of_le_of_lt (UInt32.le_iff_toNat_le.mp hc.2) (by decide)
  simp [isNameChar, isLetterOrNumeral, isNumeral, hlt, hc]

theorem passes_of_isDigit {c : Char} (hc : c.isDigit = true) (depth : Nat) :
    Passes depth depth c := passes_of_isNameChar (isNameChar_of_isDigit hc) depth

/-- Inside brackets the end of one text is the end of the other, so that a fraction counts in both
or in neither. -/
theorem steady_numeral (hR : Twins R) :
    Steady R bound 0 (depth + 1) (depth + 1) Number.numeral? Number.numeral? := by
  intro s s' _ _ h
  have hdigit : ∀ c : Char, c.isDigit = true → Passes (depth + 1) (depth + 1) c :=
    fun c hc => passes_of_isDigit hc _
  obtain ⟨hwhole, hrest⟩ := hR.takeWhile hdigit h
  have hl := (List.dropWhile_sublist (l := s) Char.isDigit).length_le
  have hl' := (List.dropWhile_sublist (l := s') Char.isDigit).length_le
  have hnoPoint : (∀ more, s.dropWhile Char.isDigit ≠ '.' :: more) →
      (∀ more, s'.dropWhile Char.isDigit ≠ '.' :: more) →
      Same R (inside (depth + 1)) 0 s s' (Number.numeral? s) (Number.numeral? s') := by
    intro hs hs'
    rw [Number.numeral_of_no_point hs, Number.numeral_of_no_point hs', hwhole]
    split
    · exact .none
    · exact .some hrest hl hl'
  rcases hR.cases_inside hrest with ⟨hs, hs'⟩ | ⟨c, more, more', hs, hs', hmore⟩
  · exact hnoPoint (by simp [hs]) (by simp [hs'])
  · by_cases hc : c = '.'
    · subst hc
      rw [(passes_of_isPlain rfl (.inl (Nat.succ_pos _))).1] at hmore
      obtain ⟨hfraction, hafter⟩ := hR.takeWhile hdigit hmore
      have hk := (List.dropWhile_sublist (l := more) Char.isDigit).length_le
      have hk' := (List.dropWhile_sublist (l := more') Char.isDigit).length_le
      -- both fractions reach the end of the text or neither does
      have hempty : (more.dropWhile Char.isDigit).isEmpty =
          (more'.dropWhile Char.isDigit).isEmpty := by
        rcases hR.cases_inside hafter with ⟨he, he'⟩ | ⟨_, _, _, he, he', -⟩
        · rw [he, he']
        · rw [he, he']
          rfl
      rw [hs, List.length_cons] at hl
      rw [hs', List.length_cons] at hl'
      rw [Number.numeral_of_point hs, Number.numeral_of_point hs', hwhole, hfraction, hempty]
      split
      · split
        · exact .none
        · exact .some hafter (by omega) (by omega)
      · exact .some hafter (by omega) (by omega)
    · exact hnoPoint (by simp [hs, hc]) (by simp [hs', hc])

/-- A numeral with its fraction is read alike in twins, also outside of brackets. -/
theorem steady_wholeNumeral (hR : Twins R) :
    Steady R bound 0 depth depth Number.wholeNumeral? Number.wholeNumeral? := by
  intro s s' _ _ h
  have hdigit : ∀ c : Char, c.isDigit = true → Passes depth depth c :=
    fun c hc => passes_of_isDigit hc _
  have hpoint : ∀ c, c = '.' → ∃ depth', Passes depth depth' c := by
    rintro _ rfl
    exact ⟨depth, passes_of_isPlain rfl (.inr rfl)⟩
  obtain ⟨hwhole, hrest⟩ := hR.takeWhile hdigit h
  have hl := (List.dropWhile_sublist (l := s) Char.isDigit).length_le
  have hl' := (List.dropWhile_sublist (l := s') Char.isDigit).length_le
  rcases hR.cases_passes hrest (· = '.') hpoint with
    ⟨_, more, more', hs, hs', rfl, hmore⟩ | ⟨hs, hs'⟩
  · obtain ⟨hfraction, hafter⟩ := hR.takeWhile hdigit hmore
    have hk := (List.dropWhile_sublist (l := more) Char.isDigit).length_le
    have hk' := (List.dropWhile_sublist (l := more') Char.isDigit).length_le
    rw [hs, List.length_cons] at hl
    rw [hs', List.length_cons] at hl'
    rw [Number.wholeNumeral_of_point hs, Number.wholeNumeral_of_point hs', hwhole, hfraction]
    split
    · exact .none
    · exact .some hafter (by omega) (by omega)
  · have hno : ∀ {t : List Char}, (∀ c ∈ t.head?, ¬ c = '.') → ∀ more, t ≠ '.' :: more := by
      rintro t ht more rfl
      exact ht '.' rfl rfl
    rw [Number.wholeNumeral_of_no_point (hno hs), Number.wholeNumeral_of_no_point (hno hs'), hwhole]
    split
    · exact .none
    · exact .some hrest hl hl'

end MarkupQuery.Query
