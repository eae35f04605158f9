import MarkupQuery.Number.Numeral
import Mathlib.Data.List.TakeWhile

namespace MarkupQuery.Number

variable {s whole fraction rest more r : List Char} {y : Float}

theorem exists_digits (s : List Char) : ∃ digits rest, s = digits ++ rest ∧
    (∀ c ∈ digits, c.isDigit = true) ∧ ∀ c ∈ rest.head?, c.isDigit = false := by
  refine ⟨s.takeWhile Char.isDigit, s.dropWhile Char.isDigit,
    List.takeWhile_append_dropWhile.symm, fun c => List.mem_takeWhile_imp, fun c hc => ?_⟩
  have hnot := List.head?_dropWhile_not Char.isDigit s
  rw [Option.mem_def.mp hc] at hnot
  simpa using hnot

theorem takeWhile_digits {digits : List Char} (h : ∀ c ∈ digits, c.isDigit = true)
    (hr : ∀ c ∈ rest.head?, c.isDigit = false) :
    (digits ++ rest).takeWhile Char.isDigit = digits ∧
      (digits ++ rest).dropWhile Char.isDigit = rest := by
  rw [List.takeWhile_append_of_pos h, List.dropWhile_append_of_pos h]
  cases rest with
  | nil => simp
  | cons c rest => simp [hr c rfl]

/-- In front of what is no digit there are digits alone, or digits on both sides of a point. -/
theorem digits_cases (s : List Char) :
    (∃ whole fraction rest, s = whole ++ '.' :: (fraction ++ rest) ∧
      (∀ c ∈ whole, c.isDigit = true) ∧ (∀ c ∈ fraction, c.isDigit = true) ∧
      ∀ c ∈ rest.head?, c.isDigit = false) ∨
    ∃ whole rest, s = whole ++ rest ∧ (∀ c ∈ whole, c.isDigit = true) ∧
      ∀ c ∈ rest.head?, c.isDigit = false ∧ c ≠ '.' := by
  obtain ⟨whole, rest, rfl, hw, hrest⟩ := exists_digits s
  by_cases hpoint : rest.head? = some '.'
  · obtain ⟨more, rfl⟩ := List.head?_eq_some_iff.mp hpoint
    obtain ⟨fraction, after, rfl, hf, hafter⟩ := exists_digits more
    exact .inl ⟨whole, fraction, after, rfl, hw, hf, hafter⟩
  · refine .inr ⟨whole, rest, rfl, hw, fun c hc => ⟨hrest c hc, ?_⟩⟩
    rintro rfl
    exact hpoint hc

theorem takeWhile_point (hw : ∀ c ∈ whole, c.isDigit = true) :
    (whole ++ '.' :: more).takeWhile Char.isDigit = whole ∧
      (whole ++ '.' :: more).dropWhile Char.isDigit = '.' :: more :=
  takeWhile_digits hw (by simp)

theorem numeral_of_point (h : s.dropWhile Char.isDigit = '.' :: more) :
    numeral? s =
      if (s.takeWhile Char.isDigit).isEmpty then
        if (more.takeWhile Char.isDigit).isEmpty then none
        else some (ofDigits [] (more.takeWhile Char.isDigit), more.dropWhile Char.isDigit)
      else some (ofDigits (s.takeWhile Char.isDigit)
        (if (more.dropWhile Char.isDigit).isEmpty then [] else more.takeWhile Char.isDigit),
        more.dropWhile Char.isDigit) := by
  unfold numeral?
  rw [h]
  rfl

theorem numeral_of_no_point (h : ∀ more, s.dropWhile Char.isDigit ≠ '.' :: more) :
    numeral? s =
      if (s.takeWhile Char.isDigit).isEmpty then none
      else some (ofDigits (s.takeWhile Char.isDigit) [], s.dropWhile Char.isDigit) := by
  unfold numeral?
  dsimp only
  split
  · rename_i hpoint
    exact absurd hpoint (h _)
  · rfl

theorem numeral_whole (hw : ∀ c ∈ whole, c.isDigit = true)
    (hr : ∀ c ∈ r.head?, c.isDigit = false ∧ c ≠ '.') : numeral? (whole ++ r) =
      if whole.isEmpty then none else some (ofDigits whole [], r) := by
  obtain ⟨htake, hdrop⟩ := takeWhile_digits hw fun c hc => (hr c hc).1
  rw [numeral_of_no_point, htake, hdrop]
  rintro more hmore
  rw [hdrop] at hmore
  exact (hr '.' (by rw [hmore]; rfl)).2 rfl

theorem numeral_of_head (hdigit : ∀ c ∈ s.head?, c.isDigit = false) (hpoint : s.head? ≠ some '.') :
    numeral? s = none := by
  have hnone : ∀ c ∈ ([] : List Char), c.isDigit = true := by simp
  refine numeral_whole hnone fun c hc => ⟨hdigit c hc, ?_⟩
  rintro rfl
  exact hpoint hc

theorem numeral_fraction (hw : ∀ c ∈ whole, c.isDigit = true)
    (hf : ∀ c ∈ fraction, c.isDigit = true) (hr : ∀ c ∈ r.head?, c.isDigit = false)
    (hne : r ≠ []) : numeral? (whole ++ '.' :: (fraction ++ r)) =
      if whole.isEmpty && fraction.isEmpty then none else some (ofDigits whole fraction, r) := by
  obtain ⟨htake, hdrop⟩ := takeWhile_point hw
  obtain ⟨htake', hdrop'⟩ := takeWhile_digits hf hr
  rw [numeral_of_point hdrop, htake, htake', hdrop']
  cases whole <;> cases fraction <;> simp [hne]

/-- At the end of a text only the digits in front of the point count, if there are any. -/
theorem numeral_fraction_end (hw : ∀ c ∈ whole, c.isDigit = true)
    (hf : ∀ c ∈ fraction, c.isDigit = true) : numeral? (whole ++ '.' :: fraction) =
      if whole.isEmpty && fraction.isEmpty then none
      else some (ofDigits whole (if whole.isEmpty then fraction else []), []) := by
  have hend : ∀ c ∈ ([] : List Char).head?, c.isDigit = false := by simp
  obtain ⟨htake, hdrop⟩ := takeWhile_point hw
  obtain ⟨htake', hdrop'⟩ := takeWhile_digits hf hend
  rw [List.append_nil] at htake' hdrop'
  rw [numeral_of_point hdrop, htake, htake', hdrop']
  cases whole <;> cases fraction <;> simp

def wholeNumeral? (s : List Char) : Option (Float × List Char) :=
  let whole := s.takeWhile Char.isDigit
  match s.dropWhile Char.isDigit with
  | '.' :: more =>
    let fraction := more.takeWhile Char.isDigit
    if whole.isEmpty && fraction.isEmpty then none
    else some (ofDigits whole fraction, more.dropWhile Char.isDigit)
  | rest => if whole.isEmpty then none else some (ofDigits whole [], rest)

theorem wholeNumeral_of_point (h : s.dropWhile Char.isDigit = '.' :: more) :
    wholeNumeral? s =
      if (s.takeWhile Char.isDigit).isEmpty && (more.takeWhile Char.isDigit).isEmpty then none
      else some (ofDigits (s.takeWhile Char.isDigit) (more.takeWhile Char.isDigit),
        more.dropWhile Char.isDigit) := by
  unfold wholeNumeral?
  rw [h]
  rfl

theorem wholeNumeral_of_no_point (h : ∀ more, s.dropWhile Char.isDigit ≠ '.' :: more) :
    wholeNumeral? s =
      if (s.takeWhile Char.isDigit).isEmpty then none
      else some (ofDigits (s.takeWhile Char.isDigit) [], s.dropWhile Char.isDigit) := by
  unfold wholeNumeral?
  dsimp only
  split
  · rename_i hpoint
    exact absurd hpoint (h _)
  · rfl

theorem wholeNumeral_whole (hw : ∀ c ∈ whole, c.isDigit = true)
    (hr : ∀ c ∈ r.head?, c.isDigit = false ∧ c ≠ '.') : wholeNumeral? (whole ++ r) =
      if whole.isEmpty then none else some (ofDigits whole [], r) := by
  obtain ⟨htake, hdrop⟩ := takeWhile_digits hw fun c hc => (hr c hc).1
  rw [wholeNumeral_of_no_point, htake, hdrop]
  rintro more hmore
  rw [hdrop] at hmore
  exact (hr '.' (by rw [hmore]; rfl)).2 rfl

theorem wholeNumeral_fraction (hw : ∀ c ∈ whole, c.isDigit = true)
    (hf : ∀ c ∈ fraction, c.isDigit = true) (hr : ∀ c ∈ r.head?, c.isDigit = false) :
    wholeNumeral? (whole ++ '.' :: (fraction ++ r)) =
      if whole.isEmpty && fraction.isEmpty then none else some (ofDigits whole fraction, r) := by
  obtain ⟨htake, hdrop⟩ := takeWhile_point hw
  obtain ⟨htake', hdrop'⟩ := takeWhile_digits hf hr
  rw [wholeNumeral_of_point hdrop, htake, htake', hdrop']

/-- A numeral that stands for another number without its fraction. -/
def LosesFraction (s : List Char) : Prop :=
  ∃ whole fraction, s = whole ++ '.' :: fraction ∧ (∀ c ∈ whole, c.isDigit = true) ∧
    (∀ c ∈ fraction, c.isDigit = true) ∧ whole ≠ [] ∧ ofDigits whole fraction ≠ ofDigits whole []

/-- The two readings of a numeral that loses its fraction at the end of a text. -/
theorem LosesFraction.numerals (h : LosesFraction s) : ∃ x y, x ≠ y ∧
    numeral? s = some (x, []) ∧ wholeNumeral? s = some (y, []) := by
  obtain ⟨whole, fraction, rfl, hw, hf, hne, hvalue⟩ := h
  have hend : ∀ c ∈ ([] : List Char).head?, c.isDigit = false := by simp
  have hwhole := wholeNumeral_fraction hw hf hend
  rw [List.append_nil] at hwhole
  refine ⟨_, _, hvalue.symm, ?_, ?_⟩
  · rw [numeral_fraction_end hw hf]
    simp [hne]
  · rw [hwhole]
    simp [hne]

/-- Only numerals that lose their fraction at the end of a text are read in two ways. -/
theorem numeral_eq_whole_iff : numeral? s = wholeNumeral? s ↔ ¬ LosesFraction s := by
  constructor
  · intro h hloses
    obtain ⟨x, y, hne, hx, hy⟩ := hloses.numerals
    rw [hx, hy] at h
    exact hne (Prod.mk.inj (Option.some.inj h)).1
  · intro h
    rcases digits_cases s with ⟨whole, fraction, rest, rfl, hw, hf, hrest⟩ |
      ⟨whole, rest, rfl, hw, hrest⟩
    · rw [wholeNumeral_fraction hw hf hrest]
      by_cases hend : rest = []
      · -- what stands behind the point is all of the text, so the fraction makes no difference
        subst hend
        have hsame : whole ≠ [] → ofDigits whole fraction = ofDigits whole [] := by
          intro hne
          by_contra hvalue
          exact h ⟨whole, fraction, by simp, hw, hf, hne, hvalue⟩
        rw [List.append_nil, numeral_fraction_end hw hf]
        cases whole with
        | nil => simp
        | cons c whole => simp [hsame]
      · exact numeral_fraction hw hf hrest hend
    · rw [numeral_whole hw hrest, wholeNumeral_whole hw hrest]

theorem numeral_eq_none : numeral? s = none ↔ wholeNumeral? s = none := by
  by_cases h : LosesFraction s
  · obtain ⟨x, y, -, hx, hy⟩ := h.numerals
    simp [hx, hy]
  · rw [numeral_eq_whole_iff.mpr h]

/-- Both readings leave off at the same place. -/
theorem exists_numeral_iff : (∃ x, numeral? s = some (x, r)) ↔ ∃ y, wholeNumeral? s = some (y, r) := by
  by_cases h : LosesFraction s
  · obtain ⟨x, y, -, hx, hy⟩ := h.numerals
    simp [hx, hy]
  · rw [numeral_eq_whole_iff.mpr h]

/-- A numeral is read with its fraction if something follows it. -/
theorem numeral_append_space : wholeNumeral? s = some (y, []) ↔
    numeral? (s ++ [' ']) = some (y, [' ']) := by
  rcases digits_cases s with ⟨whole, fraction, rest, rfl, hw, hf, hrest⟩ |
    ⟨whole, rest, rfl, hw, hrest⟩
  · have hspace : ∀ c ∈ (rest ++ [' ']).head?, c.isDigit = false := by
      cases rest with
      | nil => simp
      | cons c rest => simpa using hrest
    have hread := numeral_fraction hw hf hspace (by simp)
    rw [List.append_assoc, List.cons_append, List.append_assoc, hread,
      wholeNumeral_fraction hw hf hrest]
    split <;> simp
  · have hspace : ∀ c ∈ (rest ++ [' ']).head?, c.isDigit = false ∧ c ≠ '.' := by
      cases rest with
      | nil => simp
      | cons c rest => simpa using hrest
    rw [List.append_assoc, numeral_whole hw hspace, wholeNumeral_whole hw hrest]
    split <;> simp

end MarkupQuery.Number
