import MarkupQuery.Proofs.Query.SteadyGrammar

namespace MarkupQuery.Query

variable {α : Type} {p : Reader α} {s r : List Char} {a : α} {as : List α}

theorem map_eq_some {β : Type} {f : α → β} {b : β} :
    Reader.map f p s = some (b, r) ↔ ∃ a, p s = some (a, r) ∧ f a = b := by
  simp [Reader.map]

theorem both_eq_some {β : Type} {q : Reader β} {b : β} :
    Reader.both p q s = some ((a, b), r) ↔ ∃ t, p s = some (a, t) ∧ q t = some (b, r) := by
  simp only [Reader.both, Option.bind_eq_bind, Option.bind_eq_some_iff, Option.pure_def,
    Option.some.injEq, Prod.mk.injEq, Prod.exists]
  constructor
  · rintro ⟨_, t, hp, _, _, hq, ⟨rfl, rfl⟩, rfl⟩
    exact ⟨t, hp, hq⟩
  · rintro ⟨t, hp, hq⟩
    exact ⟨a, t, hp, b, r, hq, ⟨rfl, rfl⟩, rfl⟩

theorem both_of_some {β : Type} {q : Reader β} (h : p s = some (a, r)) :
    Reader.both p q s = (q r).map fun found => ((a, found.1), found.2) := by
  simp only [Reader.both, h, Option.bind_eq_bind, Option.bind_some]
  cases q r <;> rfl

theorem spaced_eq_some : Reader.spaced p s = some (a, r) ↔
    ∃ t, p (Text.skipSpace s) = some (a, t) ∧ Text.skipSpace t = r := by
  simp only [Reader.spaced, Option.map_eq_some_iff, Prod.exists, Prod.mk.injEq]
  constructor
  · rintro ⟨_, t, hp, rfl, ht⟩
    exact ⟨t, hp, ht⟩
  · rintro ⟨t, hp, ht⟩
    exact ⟨a, t, hp, rfl, ht⟩

theorem char_eq_some {c : Char} {u : Unit} : Reader.char c s = some (u, r) ↔ s = c :: r := by
  cases s with
  | nil => simp [Reader.char]
  | cons d s => by_cases hd : d = c <;> simp [Reader.char, hd]

theorem char_of_head_ne {c : Char} (h : s.head? ≠ some c) : Reader.char c s = none := by
  cases s with
  | nil => rfl
  | cons d s =>
    have hd : d ≠ c := by simpa using h
    simp [Reader.char, hd]

theorem spaced_char_of_head_ne {c : Char} (h : (Text.skipSpace s).head? ≠ some c) :
    Reader.spaced (.char c) s = none := by
  simp [Reader.spaced, char_of_head_ne h]

theorem eq_append_of_word {text : String} {after : List Char} {u : Unit}
    (h : Reader.word text s = some (u, after)) : s = text.toList ++ after := by
  obtain ⟨found, hfound, he⟩ := Option.map_eq_some_iff.mp h
  obtain rfl : found = after := (Prod.mk.inj he).2
  unfold Text.afterStart? at hfound
  split at hfound
  · rename_i hprefix
    obtain ⟨t, rfl⟩ := List.isPrefixOf_iff_prefix.mp hprefix
    rw [List.drop_left] at hfound
    rw [Option.some.inj hfound]
  · cases hfound

def Strict (p : Reader α) : Prop := ∀ s a r, p s = some (a, r) → r.length < s.length

theorem strict_of_steady {depth : Nat}
    (h : ∀ bound, Steady (fun _ s s' => s = s') bound 1 depth depth p p) : Strict p := by
  intro s a r hp
  have hs := h (s.length + 1) s s (Nat.lt_succ_self _) (Nat.lt_succ_self _) rfl
  rw [hp] at hs
  cases hs with
  | some _ hl => exact hl

theorem Strict.manyUpTo_eq (hp : Strict p) {fuel fuel' : Nat} (hf : s.length ≤ fuel)
    (hf' : s.length ≤ fuel') : Reader.manyUpTo p fuel s = Reader.manyUpTo p fuel' s := by
  have hsteady : Steady (fun _ s s' => s = s') (s.length + 1) 1 0 0 p p := by
    rintro s - - - rfl
    cases h : p s with
    | none => exact .none
    | some found => exact .some rfl (hp _ _ _ h) (hp _ _ _ h)
  obtain ⟨hvalues, hrests, -, -⟩ :=
    hsteady.manyUpTo (Nat.lt_succ_self _) (Nat.lt_succ_self _) hf hf' rfl
  exact Prod.ext hvalues hrests

theorem many_of_none (h : p s = none) : Reader.many p s = some ([], s) := by
  unfold Reader.many
  cases s.length <;> simp [Reader.manyUpTo, h]

theorem Strict.many_of_some (hp : Strict p) (h : p s = some (a, r)) :
    Reader.many p s = (Reader.many p r).map fun (as, t) => (a :: as, t) := by
  have hlength := hp s a r h
  obtain ⟨fuel, hfuel⟩ := Nat.exists_eq_succ_of_ne_zero (Nat.ne_of_gt (Nat.lt_of_le_of_lt
    (Nat.zero_le _) hlength))
  have hfuel' : r.length ≤ fuel := by omega
  simp only [Reader.many, Option.map_some, hfuel, Reader.manyUpTo, h]
  rw [hp.manyUpTo_eq hfuel' (Nat.le_refl r.length)]

/-- Either nothing can be read, or a first value and then the others. -/
theorem Strict.many_iff (hp : Strict p) : Reader.many p s = some (as, r) ↔
    (p s = none ∧ as = [] ∧ r = s) ∨
      ∃ a t rest, p s = some (a, t) ∧ Reader.many p t = some (rest, r) ∧ as = a :: rest := by
  cases h : p s with
  | none => simp [many_of_none h, eq_comm]
  | some found =>
    obtain ⟨a, t⟩ := found
    rw [hp.many_of_some h, Option.map_eq_some_iff]
    constructor
    · rintro ⟨⟨rest, u⟩, hrest, he⟩
      obtain ⟨rfl, rfl⟩ := Prod.mk.inj he
      exact .inr ⟨a, t, rest, rfl, hrest, rfl⟩
    · rintro (⟨h, -⟩ | ⟨b, u, rest, hb, hrest, rfl⟩)
      · simp at h
      · obtain ⟨rfl, rfl⟩ := Prod.mk.inj (Option.some.inj hb)
        exact ⟨(rest, r), hrest, rfl⟩

/-- Where the values in a row end, no further value can be read. -/
theorem Strict.none_of_many (hp : Strict p) (h : Reader.many p s = some (as, r)) :
    p r = none := by
  induction as generalizing s with
  | nil =>
    rcases hp.many_iff.mp h with ⟨hnone, -, rfl⟩ | ⟨_, _, _, -, -, hcons⟩
    · exact hnone
    · simp at hcons
  | cons a as ih =>
    rcases hp.many_iff.mp h with ⟨-, hnil, -⟩ | ⟨_, _, _, -, hrest, hcons⟩
    · simp at hnil
    · obtain ⟨-, rfl⟩ := List.cons.inj hcons
      exact ih hrest

/-- Values in a row always can be read, maybe none. -/
theorem exists_many (p : Reader α) (s : List Char) : ∃ as r, Reader.many p s = some (as, r) :=
  ⟨_, _, rfl⟩

end MarkupQuery.Query
