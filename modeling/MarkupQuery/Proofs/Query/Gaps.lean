import MarkupQuery.Proofs.Query.Places

namespace MarkupQuery.Query

open MarkupQuery.Text MarkupQuery.Page

/-- White space `w` is put between `u` and `v`, where two tokens meet and some is skipped. -/
structure Gap (u v w : List Char) : Prop where
  spaces : ∀ c ∈ w, isSpace c = true
  filled : w ≠ []
  more : v ≠ []
  unquoted : (place u).quote = none
  apart : (place u).spaced = false → ∀ c ∈ v.head?, (place u).last.extend? c = none
  loose : (place u).spaced = false → ¬ Joins (place u) v

/-- What is known where a reader starts or leaves off: in front of the gap of the place and of the
text up to the gap, and else of the gap. -/
structure Spot where
  before : Place → List Char → Prop
  gap : Prop

def Spot.of (u : List Char) (P : Place → List Char → Prop) : Spot := ⟨P, P (place u) []⟩

def Spot.right (u : List Char) (k : List Bool) (m : Mark) : Spot := .of u fun q _ => q = .right k m

/-- Two rests of a text with the white space and without it. -/
inductive Near (u v w : List Char) (S : Spot) : List Char → List Char → Prop
  | same (t : List Char) : Near u v w S t t
  | before {read s : List Char} (hu : u = read ++ s) (hs : s ≠ []) (h : S.before (place read) s) :
    Near u v w S (s ++ v) (s ++ (w ++ v))
  | gap (h : S.gap) : Near u v w S v (w ++ v)

variable {α : Type} {u v w s s' x read : List Char} {bound taken : Nat} {k : List Bool}
  {m m' : Mark} {c : Char} {S T : Spot} {P : Place → List Char → Prop} {p : Reader α}

namespace Gap

variable (h : Gap u v w)

include h

theorem head_space : ∀ c ∈ (w ++ v).head?, isSpace c = true := by
  intro c hc
  rw [List.head?_append_of_ne_nil _ h.filled] at hc
  exact h.spaces c (List.mem_of_mem_head? hc)

theorem skip : skipSpace (w ++ v) = skipSpace v := List.dropWhile_append_of_pos h.spaces

/-- Where white space is put in, nothing else comes next. -/
theorem head_ne (hc : isSpace c = false) : (w ++ v).head? ≠ some c := by
  intro hhead
  simp [h.head_space c hhead] at hc

/-- The token in front of the gap does not go on behind it. -/
theorem extend_none (hu : place u = .right k m) : ∀ c ∈ v.head?, m.extend? c = none := by
  have happart := h.apart
  rw [hu] at happart
  exact happart rfl

/-- A name in front of the gap ends there. -/
theorem name_ends {text : List Char} {operand : Bool} (hu : place u = .right k (.name text operand)) :
    ∀ c ∈ v.head?, isNameChar c = false ∧ c ≠ ':' := by
  intro c hc
  have hnone := h.extend_none hu c hc
  simp only [Mark.extend?] at hnone
  split at hnone
  · cases hnone
  · rename_i hname
    split at hnone
    · cases hnone
    · rename_i hcolon
      exact ⟨by simpa using hname, by simpa using hcolon⟩

/-- What is read as long as it goes on ends at the gap at the latest. -/
theorem span {f : Char → Bool} (hspace : ∀ c, isSpace c = true → f c = false)
    (hstop : s.dropWhile f = [] → ∀ c ∈ v.head?, f c = false) (hx : x = v ∨ x = w ++ v) :
    (s ++ x).takeWhile f = s.takeWhile f ∧ (s ++ x).dropWhile f = s.dropWhile f ++ x := by
  have hhead : s.dropWhile f = [] → ∀ c ∈ x.head?, f c = false := by
    rcases hx with rfl | rfl
    · exact hstop
    · exact fun _ c hc => hspace c (h.head_space c hc)
  clear hstop
  induction s with
  | nil =>
    cases x with
    | nil => simp
    | cons c x => simp [hhead rfl c rfl]
  | cons c s ih =>
    cases hc : f c with
    | true =>
      have hs := ih (by simpa [hc] using hhead)
      simp [hc, hs]
    | false => simp [hc]

end Gap

namespace Near

theorem imp (h : Near u v w S s s') (hb : ∀ q t, S.before q t → T.before q t)
    (hg : S.gap → T.gap) : Near u v w T s s' := by
  cases h with
  | same => exact .same s
  | before hu hs h => exact .before hu hs (hb _ _ h)
  | gap h => exact .gap (hg h)

theorem weaken {Q : Place → List Char → Prop} (h : Near u v w (.of u P) s s')
    (hPQ : ∀ q t, P q t → Q q t) : Near u v w (.of u Q) s s' := h.imp hPQ (hPQ _ _)

theorem intro (hu : u = read ++ s) (h : P (place read) s) :
    Near u v w (.of u P) (s ++ v) (s ++ (w ++ v)) := by
  cases s with
  | nil =>
    rw [List.append_nil] at hu
    exact .gap (hu ▸ h)
  | cons c s => exact .before hu (List.cons_ne_nil c s) h

theorem right (hu : u = read ++ s) (h : place read = .right k m) :
    Near u v w (.right u k m) (s ++ v) (s ++ (w ++ v)) := intro hu h

end Near

def Skips (P : Place → List Char → Prop) : Prop :=
  ∀ q c s, isSpace c = true → P q (c :: s) → P (q.after c) s

theorem Near.skipSpace (h : Gap u v w) (hP : Skips S.before) (hn : Near u v w S s s') :
    Near u v w ⟨S.before, False⟩ (skipSpace s) (skipSpace s') := by
  have hbefore : ∀ {t read}, u = read ++ t → S.before (place read) t →
      Near u v w ⟨S.before, False⟩ (Text.skipSpace (t ++ v)) (Text.skipSpace (t ++ (w ++ v))) := by
    intro t
    induction t with
    | nil =>
      intro _ _ _
      rw [List.nil_append, List.nil_append, h.skip]
      exact .same _
    | cons c t ih =>
      intro read hu hb
      cases hc : isSpace c with
      | false =>
        have hskip : ∀ x, Text.skipSpace (c :: t ++ x) = c :: t ++ x := fun x => by
          simp [Text.skipSpace, hc]
        rw [hskip, hskip]
        exact .before hu (List.cons_ne_nil c t) hb
      | true =>
        have hskip : ∀ x, Text.skipSpace (c :: t ++ x) = Text.skipSpace (t ++ x) := fun x => by
          simp [Text.skipSpace, hc]
        rw [hskip, hskip]
        have hnext := hP _ c t hc hb
        have hplace : (place read).after c = place (read ++ [c]) := (place_append read [c]).symm
        rw [hplace] at hnext
        exact ih (by rw [hu, List.append_assoc, List.singleton_append]) hnext
  cases hn with
  | same => exact .same _
  | before hu _ hb => exact hbefore hu hb
  | gap _ =>
    rw [h.skip]
    exact .same _

theorem agrees_spaced (h : Gap u v w) (hS : Skips S.before) (hT : Skips T.before)
    (hp : Agrees (Near u v w) bound taken ⟨S.before, False⟩ T p p) :
    Agrees (Near u v w) bound taken S ⟨T.before, False⟩ (.spaced p) (.spaced p) :=
  hp.spaced (fun _ _ => Near.skipSpace h hS) fun _ _ => Near.skipSpace h hT

/-- A reader that fails at the gap is known if it is known in front of it. -/
theorem agrees_of (hlength : ∀ t a r, p t = some (a, r) → r.length + taken ≤ t.length)
    (hbefore : ∀ read s, u = read ++ s → s ≠ [] → S.before (place read) s →
      Same (Near u v w) T taken (s ++ v) (s ++ (w ++ v)) (p (s ++ v)) (p (s ++ (w ++ v))))
    (hgap : S.gap → p v = none ∧ p (w ++ v) = none) : Agrees (Near u v w) bound taken S T p p := by
  intro s s' _ _ hn
  cases hn with
  | same =>
    cases hp : p s with
    | none => exact .none
    | some found =>
      have hl := hlength s found.1 found.2 hp
      exact .some (.same _) hl hl
  | before hu hs h => exact hbefore _ _ hu hs h
  | gap h =>
    obtain ⟨hv, hw⟩ := hgap h
    rw [hv, hw]
    exact .none

theorem isNameChar_of_isSpace (hc : isSpace c = true) : isNameChar c = false := by
  cases hname : isNameChar c with
  | false => rfl
  | true =>
    have hblank := isBlank_of_isNameChar hname
    rw [isBlank_of_isSpace c hc] at hblank
    cases hblank

theorem isSpace_of_isNameChar (hc : isNameChar c = true) : isSpace c = false := by
  cases hspace : isSpace c with
  | false => rfl
  | true =>
    rw [isNameChar_of_isSpace hspace] at hc
    cases hc

theorem isNameStart_of_isSpace (hc : isSpace c = true) : isNameStart c = false := by
  cases hstart : isNameStart c with
  | false => rfl
  | true =>
    have hname := isNameChar_of_isNameStart hstart
    rw [isNameChar_of_isSpace hc] at hname
    cases hname

end MarkupQuery.Query
