import MarkupQuery.Text.Blank
import MarkupQuery.Text.Search
import Mathlib.Data.List.Infix

namespace MarkupQuery.Text

variable {s word text : List Char} {parts more : List (List Char)}

theorem splitWhere_eq (p : Char → Bool) (s : List Char) : splitWhere p s = s.splitOnP p := by
  induction s with
  | nil => rfl
  | cons c s ih =>
    rw [splitWhere, List.splitOnP_cons_eq_if_modifyHead, ih]
    cases hs : s.splitOnP p with
    | nil => exact absurd hs (List.splitOnP_ne_nil p s)
    | cons first rest => rfl

theorem not_mem_splitWhere {p : Char → Bool} {s w : List Char} (hw : w ∈ splitWhere p s) :
    ∀ c ∈ w, p c = false := by
  induction s generalizing w with
  | nil =>
    obtain rfl : w = [] := by simpa [splitWhere] using hw
    simp
  | cons c s ih =>
    rw [splitWhere] at hw
    split at hw
    · rcases List.mem_cons.mp hw with rfl | hw
      · simp
      · exact ih hw
    · rename_i hc
      split at hw
      · obtain rfl : w = [c] := by simpa using hw
        simpa using hc
      · rename_i first more hsplit
        rw [hsplit] at ih
        rcases List.mem_cons.mp hw with rfl | hw
        · exact List.forall_mem_cons.mpr ⟨by simpa using hc, ih List.mem_cons_self⟩
        · exact ih (List.mem_cons_of_mem _ hw)

theorem joinWith_splitWhere (c : Char) (s : List Char) :
    joinWith [c] (splitWhere (· == c) s) = s := by
  rw [splitWhere_eq]
  exact List.intercalate_splitOn c

theorem splitWhere_joinWith {c : Char} (h : ∀ part ∈ parts, c ∉ part) (hne : parts ≠ []) :
    splitWhere (· == c) (joinWith [c] parts) = parts := by
  rw [splitWhere_eq]
  exact List.splitOn_intercalate c h hne

theorem splitWhere_append (c : Char) (s t : List Char) :
    splitWhere (· == c) (s ++ c :: t) = splitWhere (· == c) s ++ splitWhere (· == c) t := by
  simp only [splitWhere_eq]
  exact List.splitOnP_append_cons s t (by simp)

theorem joinWith_cons (between first : List Char) {more : List (List Char)} (hm : more ≠ []) :
    joinWith between (first :: more) = first ++ (between ++ joinWith between more) := by
  obtain ⟨second, more, rfl⟩ := List.exists_cons_of_ne_nil hm
  simp [joinWith, List.intercalate]

theorem joinWith_eq_flatMap (between first : List Char) (more : List (List Char)) :
    joinWith between (first :: more) = first ++ more.flatMap fun text => between ++ text := by
  induction more generalizing first with
  | nil => simp [joinWith]
  | cons second more ih =>
    have hcons : joinWith between (first :: second :: more) =
        first ++ (between ++ joinWith between (second :: more)) := by
      simp [joinWith, List.intercalate]
    rw [hcons, ih, List.flatMap_cons, List.append_assoc]

theorem joinWith_append (between : List Char) (hparts : parts ≠ []) (hmore : more ≠ []) :
    joinWith between (parts ++ more) =
      joinWith between parts ++ (between ++ joinWith between more) := by
  induction parts with
  | nil => exact absurd rfl hparts
  | cons first parts ih =>
    rw [List.cons_append]
    by_cases hne : parts = []
    · subst hne
      rw [List.nil_append, joinWith_cons _ _ hmore]
      simp [joinWith]
    · rw [joinWith_cons _ _ (by simp [hne]), joinWith_cons _ _ hne, ih hne]
      simp

theorem intersperse_ne_nil {α : Type} {as : List α} (hne : as ≠ []) (a : α) :
    as.intersperse a ≠ [] := by
  obtain ⟨first, more, rfl⟩ := List.exists_cons_of_ne_nil hne
  cases more <;> simp

/-- Texts with another one between them, all of them with commas between them. -/
theorem joinWith_intersperse (comma middle : List Char) (parts : List (List Char)) :
    joinWith comma (parts.intersperse middle) = joinWith (comma ++ middle ++ comma) parts := by
  induction parts with
  | nil => rfl
  | cons first parts ih =>
    cases parts with
    | nil => rfl
    | cons second parts =>
      rw [joinWith_cons _ first (by simp : second :: parts ≠ []), ← ih]
      have hcons : (first :: second :: parts).intersperse middle =
          first :: middle :: (second :: parts).intersperse middle := rfl
      rw [hcons, joinWith_cons _ _ (by simp), joinWith_cons _ _ (intersperse_ne_nil (by simp) _)]
      simp

theorem contains_iff {pattern : List Char} : contains s pattern = true ↔ pattern <:+: s := by
  rw [contains]
  induction s with
  | nil => simp [cutAt]
  | cons c s ih =>
    rw [cutAt, List.infix_cons_iff, ← ih, ← List.isPrefixOf_iff_prefix]
    split
    · simp [*]
    · simp [*]

theorem mem_words (h : word ∈ words text) : word ≠ [] ∧ ∀ c ∈ word, isBlank c = false := by
  obtain ⟨hword, hne⟩ := List.mem_filter.mp h
  exact ⟨by simpa using hne, not_mem_splitWhere hword⟩

theorem space_not_mem_words (h : word ∈ words text) : ' ' ∉ word := fun hspace => by
  have hblank := (mem_words h).2 ' ' hspace
  exact absurd hblank (by decide)

/-- With spaces around both, a text stands in another one exactly if its pieces between spaces are
consecutive pieces of the other one. -/
theorem spaced_infix_iff : (' ' :: word ++ [' ']) <:+: (' ' :: s ++ [' ']) ↔
    splitWhere (· == ' ') word <:+: splitWhere (· == ' ') s := by
  have hspaced : splitWhere (· == ' ') (' ' :: s ++ [' ']) =
      [] :: (splitWhere (· == ' ') s ++ [[]]) := by
    have hstart := splitWhere_append ' ' [] (s ++ [' '])
    have hend := splitWhere_append ' ' s []
    rw [hend] at hstart
    exact hstart
  constructor
  · rintro ⟨before, after, h⟩
    have hsplit : splitWhere (· == ' ') before ++
        (splitWhere (· == ' ') word ++ splitWhere (· == ' ') after) =
          [] :: (splitWhere (· == ' ') s ++ [[]]) := by
      rw [← hspaced, ← h, ← splitWhere_append, ← splitWhere_append]
      simp
    -- the pieces of the word leave out the first and the last piece
    obtain ⟨first, front, hfront⟩ := List.exists_cons_of_ne_nil (splitWhere_ne_nil (· == ' ') before)
    obtain ⟨back, last, hback⟩ := (List.eq_nil_or_concat (splitWhere (· == ' ') after)).resolve_left
      (splitWhere_ne_nil _ after)
    rw [hfront, hback, List.concat_eq_append, List.cons_append, List.cons.injEq,
      ← List.append_assoc, ← List.append_assoc] at hsplit
    obtain ⟨hmiddle, -⟩ := List.append_inj' hsplit.2 rfl
    exact ⟨front, back, hmiddle⟩
  · rintro ⟨front, back, h⟩
    refine ⟨joinWith [' '] ([] :: front), joinWith [' '] (back ++ [[]]), ?_⟩
    have hword := joinWith_splitWhere ' ' word
    have hs := joinWith_splitWhere ' ' (' ' :: s ++ [' '])
    have hne := splitWhere_ne_nil (· == ' ') word
    have hpieces : splitWhere (· == ' ') (' ' :: s ++ [' ']) =
        ([] :: front) ++ (splitWhere (· == ' ') word ++ (back ++ [[]])) := by
      rw [hspaced, ← h]
      simp
    rw [hpieces, joinWith_append _ (by simp) (by simp), joinWith_append _ hne (by simp), hword] at hs
    rw [← hs]
    simp

/-- The word is one of the words of the text. With spaces in it, its pieces are consecutive words;
without a character, the text has no words. -/
def HasWord (text word : List Char) : Prop :=
  if word = [] then words text = [] else splitWhere (· == ' ') word <:+: words text

instance (text word : List Char) : Decidable (HasWord text word) :=
  inferInstanceAs (Decidable (if word = [] then _ else _))

theorem splitWhere_of_no_space (h : ' ' ∉ word) : splitWhere (· == ' ') word = [word] := by
  have hjoin : splitWhere (· == ' ') (joinWith [' '] [word]) = [word] :=
    splitWhere_joinWith (by simpa using h) (by simp)
  simpa [joinWith] using hjoin

/-- Without a space, a word is one of the words if it is there. -/
theorem hasWord_iff_mem (hne : word ≠ []) (h : ' ' ∉ word) :
    HasWord text word ↔ word ∈ words text := by
  rw [HasWord, if_neg hne, splitWhere_of_no_space h]
  constructor
  · intro hinfix
    exact hinfix.subset (by simp)
  · intro hmem
    obtain ⟨before, after, heq⟩ := List.append_of_mem hmem
    exact ⟨before, after, by simp [heq]⟩

/-- A word is looked for with spaces around it. -/
theorem spaced_words_iff : (' ' :: word ++ [' ']) <:+: (' ' :: joinWith [' '] (words text) ++ [' ']) ↔
    HasWord text word := by
  rw [spaced_infix_iff, HasWord]
  have hpieces := splitWhere_ne_nil (· == ' ') word
  by_cases hwords : words text = []
  · have hempty : splitWhere (· == ' ') (joinWith [' '] (words text)) = [[]] := by rw [hwords]; rfl
    rw [hempty, hwords]
    split
    · rename_i hword
      subst hword
      simp [splitWhere]
    · rename_i hword
      refine iff_of_false (fun h => ?_) (by simpa using hpieces)
      -- a sublist of one piece that has a piece is that piece
      have hone := h.sublist.eq_of_length_le (List.length_pos_of_ne_nil hpieces)
      have hjoin := joinWith_splitWhere ' ' word
      rw [hone] at hjoin
      exact hword hjoin.symm
  · rw [splitWhere_joinWith (fun part hpart => space_not_mem_words hpart) hwords]
    split
    · rename_i hword
      subst hword
      refine iff_of_false (fun h => ?_) hwords
      exact (mem_words (h.subset (List.mem_singleton_self [] : [] ∈ splitWhere (· == ' ') []))).1 rfl
    · rfl

def spacedWords (s : List Char) : List (List Char) :=
  (splitWhere isSpace s).filter fun w => !w.isEmpty

theorem mem_spacedWords (h : word ∈ spacedWords text) :
    word ≠ [] ∧ ∀ c ∈ word, isSpace c = false := by
  obtain ⟨hword, hne⟩ := List.mem_filter.mp h
  exact ⟨by simpa using hne, not_mem_splitWhere hword⟩

/-- Where looking for a word finds something else than one of the words between white space: the
empty word where there are no words, a word with spaces where several words follow each other, and
any word where other blanks cut the text. -/
def WordStrays (text word : List Char) : Prop :=
  if word = [] then words text = []
  else if ' ' ∈ word then splitWhere (· == ' ') word <:+: words text
  else ¬ (word ∈ words text ↔ word ∈ spacedWords text)

instance (text word : List Char) : Decidable (WordStrays text word) :=
  inferInstanceAs (Decidable (if word = [] then _ else _))

theorem hasWord_iff_mem_spacedWords : (HasWord text word ↔ word ∈ spacedWords text) ↔
    ¬ WordStrays text word := by
  unfold WordStrays
  split
  · rename_i hempty
    have hnot : word ∉ spacedWords text := fun hmem => (mem_spacedWords hmem).1 hempty
    rw [HasWord, if_pos hempty, iff_false_right hnot]
  split
  · rename_i hne hspace
    have hnot : word ∉ spacedWords text := fun hmem =>
      absurd ((mem_spacedWords hmem).2 ' ' hspace) (by decide)
    rw [HasWord, if_neg hne, iff_false_right hnot]
  · rename_i hne hspace
    rw [hasWord_iff_mem hne hspace, not_not]

end MarkupQuery.Text
