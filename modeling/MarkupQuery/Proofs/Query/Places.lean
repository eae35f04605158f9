import MarkupQuery.Proofs.Query.CallStarts

namespace MarkupQuery.Query

open MarkupQuery.Text MarkupQuery.Page

/-- The token in front of a place, as far as it is written. -/
inductive Mark where
  | start
  /-- An operator or a comma that ends in a character. -/
  | sign (last : Char)
  /-- The entity that an operator begins with, without its semicolon. -/
  | entity
  /-- `@` or `::`. -/
  | marker
  | slash
  | opened
  | closed
  | name (text : List Char) (operand : Bool)
  /-- A name and a colon. -/
  | colon (text : List Char) (operand : Bool)
  | star (operand : Bool)
  | point
  | number
  | literal
deriving DecidableEq, Repr

namespace Mark

def extend? (m : Mark) (c : Char) : Option Mark :=
  match m with
  | sign d => if ['<', '>', '!', ';'].contains d && c == '=' then some (sign '=') else none
  | entity => if isNameChar c then some entity else if c == ';' then some (sign ';') else none
  | slash => if c == '/' then some slash else none
  | name text operand =>
    if isNameChar c then some (name (text ++ [c]) operand)
    else if c == ':' then some (colon text operand) else none
  | colon text operand =>
    if c == ':' then some marker
    else if c == '*' then some (star operand)
    else if isNameStart c then some (name (text ++ [':', c]) operand) else none
  | point => if c == '.' then some point else if c.isDigit then some number else none
  | number => if c.isDigit || c == '.' then some number else none
  | start | marker | opened | closed | star _ | literal => none

/-- Whether a step ends with this token, as long as it has no predicates. -/
def endsStep : Mark → Bool
  | name _ operand | star operand => operand
  | point => true
  | start | sign _ | entity | marker | slash | opened | closed | colon .. | number | literal => false

def isCall : Mark → Bool
  | name text operand => operand && !isNodeTypeName (String.ofList text)
  | _ => false

end Mark

/-- What there is to know of the text in front of a place. -/
structure Place where
  quote : Option Char := none
  /-- The brackets around the place, the innermost first; those of arguments are marked. -/
  brackets : List Bool := []
  last : Mark := .start
  /-- There are blanks behind the last token. -/
  spaced : Bool := false
deriving DecidableEq, Repr

namespace Place

/-- An operand or a step comes next. Blanks behind a slash end a path. -/
def expects (q : Place) : Bool :=
  match q.last with
  | .start | .sign _ | .entity | .marker | .opened => true
  | .slash => !q.spaced
  | .name _ operand | .colon _ operand | .star operand => !operand
  | .closed | .point | .number | .literal => false

def mark (q : Place) (c : Char) : Mark :=
  if c == '\'' || c == '"' then .literal
  else if c == '@' then .marker
  else if c == '/' then .slash
  else if c == '(' || c == '[' then .opened
  else if c == ')' || c == ']' then .closed
  else if c == '*' then .star q.expects
  else if c == '.' then .point
  else if c == '&' then .entity
  else if c.isDigit then .number
  else if isNameStart c then .name [c] q.expects
  else .sign c

def fresh (q : Place) (c : Char) : Place where
  quote := if c == '\'' || c == '"' then some c else none
  brackets :=
    if c == '(' then q.last.isCall :: q.brackets
    else if c == '[' then false :: q.brackets
    else if c == ')' || c == ']' then q.brackets.tail
    else q.brackets
  last := q.mark c

def after (q : Place) (c : Char) : Place :=
  match q.quote with
  | some d => if c == d then { q with quote := none } else q
  | none =>
    if isBlank c then { q with spaced := true }
    else match if q.spaced then none else q.last.extend? c with
      | some last => { q with last := last }
      | none => q.fresh c

def behind (q : Place) (text : List Char) : Place := text.foldl after q

end Place

def place (text : List Char) : Place := Place.behind {} text

/-- Two texts meet between tokens: not in quotes, and no token of the first one goes on in the second
one. The colons of an axis do not belong to its name. -/
def Separates (u v : List Char) : Prop :=
  (place u).quote = none ∧ ((place u).spaced = false →
    "::".toList <+: v ∨ ∀ c ∈ v.head?, (place u).last.extend? c = none)

def startsFraction : List Char → Bool
  | '.' :: c :: _ => c.isDigit
  | _ => false

def startsPath (v : List Char) : Bool :=
  v.head? == some '/' || v.head?.any startsStep && !startsFraction v && !startsWithCall v

/-- The readers expect the next token directly behind the last one. -/
@[mk_iff]
inductive Joins (q : Place) (v : List Char) : Prop where
  | marked (h : q.last = .marker)
  | colons (h : "::".toList <+: v)
  | stepped (h : q.last = .slash) (hv : v.head?.any startsStep = true)
  | slashed (h : q.last.endsStep = true) (hv : v.head? = some '/')
  | opened (h : q.last = .opened) (hc : q.brackets.head? = some true) (hv : startsPath v = true)
  | closed (h : q.last.endsStep = true ∨ q.last = .slash ∨ q.last = .opened)
    (hc : q.brackets.head? = some true) (hv : v.head? = some ')')

/-- Where two texts meet no white space may stand. -/
def Abuts (u v : List Char) : Prop := (place u).spaced = false ∧ Joins (place u) v

instance decidableHead (v : List Char) (p : Char → Prop) [DecidablePred p] :
    Decidable (∀ c ∈ v.head?, p c) :=
  match v with
  | [] => isTrue nofun
  | c :: _ => decidable_of_iff (p c) (by simp)

instance (u v : List Char) : Decidable (Separates u v) := inferInstanceAs (Decidable (_ ∧ _))

instance (q : Place) (v : List Char) : Decidable (Joins q v) := decidable_of_iff _ (joins_iff q v).symm

instance (u v : List Char) : Decidable (Abuts u v) := inferInstanceAs (Decidable (_ ∧ _))

variable {q : Place} {c : Char} {k : List Bool} {m m' : Mark} {s t text : List Char} {operand b : Bool}

namespace Mark

def run : Mark → List Char → Option Mark
  | m, [] => some m
  | m, c :: cs => (m.extend? c).bind fun m => m.run cs

theorem run_append (m : Mark) (s t : List Char) : m.run (s ++ t) = (m.run s).bind (·.run t) := by
  induction s generalizing m with
  | nil => rfl
  | cons c s ih =>
    rw [List.cons_append, run, run, Option.bind_assoc]
    exact Option.bind_congr fun m' _ => ih m'

section Extension

attribute [local simp] extend?

/-- Only these characters and those of names go on with a token. -/
theorem extend?_eq_none (hc : isNameChar c = false) (hs : c ∉ ['=', ';', '/', ':', '*']) (m : Mark) :
    m.extend? c = none := by
  have hstart : isNameStart c = false := by
    by_contra hstart
    simp [isNameChar_of_isNameStart (by simpa using hstart)] at hc
  have hdigit : c.isDigit = false := by
    by_contra hdigit
    simp [isNameChar_of_isDigit (by simpa using hdigit)] at hc
  have hpoint : c ≠ '.' := by
    rintro rfl
    exact absurd hc (by decide)
  simp only [List.mem_cons, List.not_mem_nil, or_false, not_or] at hs
  cases m <;> simp [hc, hstart, hdigit, hpoint, hs]

theorem isBlank_of_extends (h : m.extend? c = some m') : isBlank c = false := by
  cases hb : isBlank c with
  | false => rfl
  | true =>
    have hname : isNameChar c = false := by
      by_contra hname
      simp [isBlank_of_isNameChar (by simpa using hname)] at hb
    rw [extend?_eq_none hname] at h
    · cases h
    · rintro hc
      simp only [List.mem_cons, List.not_mem_nil, or_false] at hc
      rcases hc with rfl | rfl | rfl | rfl | rfl <;> exact absurd hb (by decide)

/-- The characters of names go on with a name. -/
theorem run_name (hs : ∀ c ∈ s, isNameChar c = true) (text : List Char) (operand : Bool) :
    (name text operand).run s = some (name (text ++ s) operand) := by
  induction s generalizing text with
  | nil => simp [run]
  | cons c s ih =>
    obtain ⟨hc, hs⟩ := List.forall_mem_cons.mp hs
    simp [run, hc, ih hs]

theorem extend?_colon (hc : isNameStart c = true) :
    (colon text operand).extend? c = some (name (text ++ [':', c]) operand) := by
  have hne : c ≠ ':' ∧ c ≠ '*' := by
    constructor <;> rintro rfl <;> exact absurd hc (by decide)
  simp [hne, hc]

theorem extend?_digit (hc : c.isDigit = true) (hm : m = number ∨ m = point) :
    m.extend? c = some number := by
  have hpoint : c ≠ '.' := by
    rintro rfl
    exact absurd hc (by decide)
  rcases hm with rfl | rfl <;> simp [hc, hpoint]

/-- Digits make a numeral of a point, and go on with a numeral. -/
theorem run_digits (hs : ∀ c ∈ s, c.isDigit = true) (hm : m = number ∨ m = point)
    (hne : s ≠ [] ∨ m = number) : m.run s = some number := by
  induction s generalizing m with
  | nil => exact congrArg some (hne.resolve_left (· rfl))
  | cons c s ih =>
    obtain ⟨hc, hs⟩ := List.forall_mem_cons.mp hs
    rw [run, extend?_digit hc hm]
    exact ih hs (.inl rfl) (.inr rfl)

end Extension

def isName : Mark → Bool
  | name .. => true
  | _ => false

def awaits : Mark → Bool
  | start | sign _ | opened => true
  | name _ operand | star operand => !operand
  | entity | marker | slash | closed | colon .. | point | number | literal => false

def ends : Mark → Bool
  | closed | number | literal => true
  | m => m.endsStep

end Mark

namespace Place

theorem behind_cons (q : Place) (c : Char) (s : List Char) :
    q.behind (c :: s) = (q.after c).behind s := rfl

theorem behind_append (q : Place) (s t : List Char) : q.behind (s ++ t) = (q.behind s).behind t :=
  List.foldl_append

theorem after_of_blank (hq : q.quote = none) (hc : isBlank c = true) :
    q.after c = { q with spaced := true } := by
  simp [after, hq, hc]

theorem after_of_extends (hq : q.quote = none) (hs : q.spaced = false)
    (h : q.last.extend? c = some m) : q.after c = { q with last := m } := by
  simp [after, hq, Mark.isBlank_of_extends h, hs, h]

theorem after_of_fresh (hq : q.quote = none) (hc : isBlank c = false)
    (h : q.spaced = false → q.last.extend? c = none) : q.after c = q.fresh c := by
  cases hs : q.spaced <;> simp [after, hq, hc, hs, h]

/-- Inside quotes, characters other than the closing one. -/
theorem behind_quoted {d : Char} (hq : q.quote = some d) (hs : ∀ c ∈ s, c ≠ d) :
    q.behind s = q := by
  induction s with
  | nil => rfl
  | cons c s ih =>
    obtain ⟨hc, hs⟩ := List.forall_mem_cons.mp hs
    have hafter : q.after c = q := by simp [after, hq, hc]
    rw [behind_cons, hafter, ih hs]

def right (k : List Bool) (m : Mark) : Place := { brackets := k, last := m }

theorem behind_of_run (h : m.run s = some m') : (right k m).behind s = right k m' := by
  induction s generalizing m with
  | nil => exact congrArg (right k) (Option.some.inj h)
  | cons c s ih =>
    obtain ⟨m₁, hm, hrun⟩ := Option.bind_eq_some_iff.mp h
    rw [behind_cons, after_of_extends rfl rfl hm]
    exact ih hrun

end Place

theorem place_append (s t : List Char) : place (s ++ t) = (place s).behind t :=
  Place.behind_append _ s t

/-!
### What is read next
-/

structure Enclosed (k : List Bool) (q : Place) : Prop where
  quote : q.quote = none
  brackets : q.brackets = k

structure Rests (k : List Bool) (q : Place) (s : List Char) : Prop extends Enclosed k q where
  apart : q.spaced = false → q.last.isName = true → ∀ c ∈ s.head?, isNameChar c = false

structure Awaits (k : List Bool) (q : Place) (s : List Char) : Prop extends Rests k q s where
  last : q.last.awaits = true

structure Steps (k : List Bool) (q : Place) (s : List Char) : Prop extends Rests k q s where
  last : q.last.awaits = true ∨ q.last = .marker ∨ q.last = .slash ∧ q.spaced = false

def operatorNames : List String := ["or", "and", "div", "mod"]

theorem isPlain_operatorName : ∀ name ∈ operatorNames, IsPlain name := by decide

structure Done (k : List Bool) (q : Place) (s : List Char) : Prop extends Rests k q s where
  last : q.last.ends = true ∨ q.last = .slash
  alone : q.last = .slash → q.spaced = false →
    s.head? ≠ some '*' ∧ ∀ name ∈ operatorNames, ¬ name.toList <+: s

theorem Awaits.steps (h : Awaits k q s) : Steps k q s := ⟨h.toRests, .inl h.last⟩

section Right

theorem rests_right (hm : m.isName = true → ∀ c ∈ s.head?, isNameChar c = false) :
    Rests k (.right k m) s := ⟨⟨rfl, rfl⟩, fun _ => hm⟩

theorem awaits_right (hm : m.awaits = true) (hn : m.isName = false) :
    Awaits k (.right k m) s := ⟨rests_right (by simp [hn]), hm⟩

theorem steps_slash : Steps k (.right k .slash) s := ⟨rests_right nofun, .inr (.inr ⟨rfl, rfl⟩)⟩

theorem steps_marker : Steps k (.right k .marker) s := ⟨rests_right nofun, .inr (.inl rfl)⟩

theorem done_right (hm : m.ends = true)
    (hn : m.isName = true → ∀ c ∈ s.head?, isNameChar c = false) : Done k (.right k m) s where
  toRests := rests_right hn
  last := .inl hm
  alone hslash := by
    obtain rfl : m = .slash := hslash
    cases hm

end Right

section Skipping

theorem Enclosed.skip (hc : isSpace c = true) (h : Enclosed k q) : Enclosed k (q.after c) := by
  rw [Place.after_of_blank h.quote (isBlank_of_isSpace c hc)]
  exact ⟨h.quote, h.brackets⟩

theorem Rests.skip (hc : isSpace c = true) (h : Rests k q (c :: s)) : Rests k (q.after c) s := by
  refine ⟨h.toEnclosed.skip hc, ?_⟩
  rw [Place.after_of_blank h.quote (isBlank_of_isSpace c hc)]
  exact nofun

theorem Awaits.skip (hc : isSpace c = true) (h : Awaits k q (c :: s)) : Awaits k (q.after c) s := by
  refine ⟨h.toRests.skip hc, ?_⟩
  rw [Place.after_of_blank h.quote (isBlank_of_isSpace c hc)]
  exact h.last

theorem Done.skip (hc : isSpace c = true) (h : Done k q (c :: s)) : Done k (q.after c) s := by
  refine ⟨h.toRests.skip hc, ?_, ?_⟩ <;>
    rw [Place.after_of_blank h.quote (isBlank_of_isSpace c hc)]
  · exact h.last
  · exact fun _ hspaced => absurd hspaced (by simp)

end Skipping

section Beginning

-- a token begins behind the last one

theorem Enclosed.fresh (h : Enclosed k q) (hc : isBlank c = false) (hn : isNameChar c = false)
    (hs : c ∉ ['=', ';', '/', ':', '*']) : q.after c = q.fresh c :=
  Place.after_of_fresh h.quote hc fun _ => Mark.extend?_eq_none hn hs _

theorem Steps.fresh (h : Steps k q (c :: s)) (hc : isBlank c = false)
    (hs : c ∉ ['=', '/', ':']) : q.after c = q.fresh c := by
  simp only [List.mem_cons, List.not_mem_nil, or_false, not_or] at hs
  refine Place.after_of_fresh h.quote hc fun hspaced => ?_
  have hapart := h.apart hspaced
  rcases h.last with hlast | hlast | ⟨hlast, -⟩
  · cases hm : q.last <;> simp_all [Mark.extend?, Mark.awaits, Mark.isName]
  · simp [hlast, Mark.extend?]
  · simp [hlast, Mark.extend?, hs]

theorem Done.fresh (h : Done k q (c :: s)) (hc : isBlank c = false)
    (hs : c ∉ ['/', ':', '.']) (hd : c.isDigit = false) : q.after c = q.fresh c := by
  simp only [List.mem_cons, List.not_mem_nil, or_false, not_or] at hs
  refine Place.after_of_fresh h.quote hc fun hspaced => ?_
  have hapart := h.apart hspaced
  rcases h.last with hlast | hlast
  · cases hm : q.last <;> simp_all [Mark.extend?, Mark.ends, Mark.endsStep, Mark.isName]
  · simp [hlast, Mark.extend?, hs]

theorem Steps.expects (h : Steps k q s) : q.expects = true := by
  rcases h.last with hlast | hlast | ⟨hlast, hspaced⟩
  · cases hm : q.last <;> simp_all [Place.expects, Mark.awaits]
  · simp [Place.expects, hlast]
  · simp [Place.expects, hlast, hspaced]

/-- A star and the names of operators are operators behind an operand. -/
theorem Done.expects (h : Done k q s)
    (hs : s.head? = some '*' ∨ ∃ name ∈ operatorNames, name.toList <+: s) : q.expects = false := by
  rcases h.last with hlast | hlast
  · cases hm : q.last <;> simp_all [Place.expects, Mark.ends, Mark.endsStep]
  · cases hspaced : q.spaced with
    | true => simp [Place.expects, hlast, hspaced]
    | false =>
      obtain ⟨hstar, hnames⟩ := h.alone hlast hspaced
      rcases hs with hs | ⟨name, hname, hs⟩
      · exact absurd hs hstar
      · exact absurd hs (hnames name hname)

theorem Enclosed.slash (h : Enclosed k q) : q.after '/' = .right k .slash := by
  obtain ⟨quote, brackets, last, spaced⟩ := q
  obtain ⟨rfl, rfl⟩ := h
  by_cases hm : spaced = false ∧ last = .slash
  · obtain ⟨rfl, rfl⟩ := hm
    rfl
  · refine Place.after_of_fresh rfl (by decide) fun hspaced => ?_
    have hlast : last ≠ .slash := fun hlast => hm ⟨hspaced, hlast⟩
    cases last <;> simp_all [Mark.extend?] <;> decide

theorem Enclosed.bracket (h : Enclosed k q) : q.after '[' = .right (false :: k) .opened := by
  rw [h.fresh (by decide) (by decide) (by decide), ← h.brackets]
  rfl

theorem Enclosed.parenthesis (h : Enclosed k q) :
    q.after '(' = .right (q.last.isCall :: k) .opened := by
  rw [h.fresh (by decide) (by decide) (by decide), ← h.brackets]
  rfl

theorem Awaits.parenthesis (h : Awaits k q ('(' :: s)) :
    q.after '(' = .right (false :: k) .opened := by
  have hcall : q.last.isCall = false := by
    have hlast := h.last
    cases hm : q.last <;> simp_all [Mark.awaits, Mark.isCall]
  rw [h.toEnclosed.parenthesis, hcall]

theorem Enclosed.close (h : Enclosed (b :: k) q) (hc : c = ')' ∨ c = ']') :
    q.after c = .right k .closed := by
  have htail : k = q.brackets.tail := by rw [h.brackets, List.tail_cons]
  rcases hc with rfl | rfl <;>
  · rw [h.fresh (by decide) (by decide) (by decide), htail]
    rfl

theorem Enclosed.comma (h : Enclosed k q) : q.after ',' = .right k (.sign ',') := by
  rw [h.fresh (by decide) (by decide) (by decide), ← h.brackets]
  rfl

theorem Enclosed.marker (h : Enclosed k q) : q.after '@' = .right k .marker := by
  rw [h.fresh (by decide) (by decide) (by decide), ← h.brackets]
  rfl

theorem Steps.point (h : Steps k q ('.' :: s)) : q.after '.' = .right k .point := by
  rw [h.fresh (by decide) (by decide), ← h.brackets]
  rfl

theorem Steps.minus (h : Steps k q ('-' :: s)) : q.after '-' = .right k (.sign '-') := by
  rw [h.fresh (by decide) (by decide), ← h.brackets]
  rfl

theorem Steps.opensQuote (h : Steps k q (c :: s)) (hc : c = '\'' ∨ c = '"') :
    q.after c = { quote := some c, brackets := k, last := .literal } := by
  rcases hc with rfl | rfl <;>
  · rw [h.fresh (by decide) (by decide), ← h.brackets]
    rfl

theorem Steps.star (h : Steps k q ('*' :: s)) : q.after '*' = .right k (.star true) := by
  rw [h.fresh (by decide) (by decide), ← h.brackets, ← h.expects]
  rfl

theorem Done.star (h : Done k q ('*' :: s)) : q.after '*' = .right k (.star false) := by
  rw [h.fresh (by decide) (by decide) (by decide), ← h.brackets, ← h.expects (.inl rfl)]
  rfl

theorem Done.sign (h : Done k q (c :: s)) (hc : c ∈ ['|', '+', '-', '=', '!', '<', '>']) :
    q.after c = .right k (.sign c) := by
  simp only [List.mem_cons, List.not_mem_nil, or_false] at hc
  rcases hc with rfl | rfl | rfl | rfl | rfl | rfl | rfl <;>
  · rw [h.fresh (by decide) (by decide) (by decide), ← h.brackets]
    rfl

theorem Done.entity (h : Done k q ('&' :: s)) : q.after '&' = .right k .entity := by
  rw [h.fresh (by decide) (by decide) (by decide), ← h.brackets]
  rfl

/-- A character of names is no quote and no bracket. -/
theorem Place.fresh_of_isNameChar (hc : isNameChar c = true) (q : Place) :
    q.fresh c = .right q.brackets (q.mark c) := by
  have hne : ∀ d, isNameChar d = false → c ≠ d := by
    rintro d hd rfl
    simp [hc] at hd
  simp [fresh, right, hne '\'' (by decide), hne '"' (by decide), hne '(' (by decide),
    hne '[' (by decide), hne ')' (by decide), hne ']' (by decide)]

theorem Place.mark_of_isNameStart (hc : isNameStart c = true) (q : Place) :
    q.mark c = .name [c] q.expects := by
  have hne : ∀ d, isNameStart d = false → c ≠ d := by
    rintro d hd rfl
    simp [hc] at hd
  simp [mark, hne '\'' (by decide), hne '"' (by decide), hne '@' (by decide),
    hne '/' (by decide), hne '(' (by decide), hne '[' (by decide), hne ')' (by decide),
    hne ']' (by decide), hne '*' (by decide), hne '.' (by decide), hne '&' (by decide),
    isDigit_of_isNameStart hc, hc]

theorem Place.mark_of_isDigit (hc : c.isDigit = true) (q : Place) : q.mark c = .number := by
  have hne : ∀ d, d.isDigit = false → c ≠ d := by
    rintro d hd rfl
    simp [hc] at hd
  simp [mark, hne '\'' (by decide), hne '"' (by decide), hne '@' (by decide),
    hne '/' (by decide), hne '(' (by decide), hne '[' (by decide), hne ')' (by decide),
    hne ']' (by decide), hne '*' (by decide), hne '.' (by decide), hne '&' (by decide), hc]

theorem not_mem_of_isNameChar (hc : isNameChar c = true) : c ∉ ['=', '/', ':'] := by
  simp only [List.mem_cons, List.not_mem_nil, or_false]
  rintro (rfl | rfl | rfl) <;> exact absurd hc (by decide)

theorem Steps.name (h : Steps k q (c :: s)) (hc : isNameStart c = true) :
    q.after c = .right k (.name [c] true) := by
  have hname := isNameChar_of_isNameStart hc
  rw [h.fresh (isBlank_of_isNameChar hname) (not_mem_of_isNameChar hname),
    Place.fresh_of_isNameChar hname, Place.mark_of_isNameStart hc, h.brackets, h.expects]

theorem Steps.digit (h : Steps k q (c :: s)) (hc : c.isDigit = true) :
    q.after c = .right k .number := by
  have hname := isNameChar_of_isDigit hc
  rw [h.fresh (isBlank_of_isNameChar hname) (not_mem_of_isNameChar hname),
    Place.fresh_of_isNameChar hname, Place.mark_of_isDigit hc, h.brackets]

theorem Steps.digits {digits : List Char} (h : Steps k q (digits ++ s))
    (hd : ∀ c ∈ digits, c.isDigit = true) (hne : digits ≠ []) :
    q.behind digits = .right k .number := by
  obtain ⟨c, cs, rfl⟩ := List.exists_cons_of_ne_nil hne
  obtain ⟨hc, hcs⟩ := List.forall_mem_cons.mp hd
  rw [Place.behind_cons, Steps.digit h hc,
    Place.behind_of_run (Mark.run_digits hcs (.inl rfl) (.inr rfl))]

/-- A point between digits belongs to a numeral, but a point alone is none. -/
theorem Steps.fraction {whole fraction : List Char} (h : Steps k q (whole ++ '.' :: s))
    (hw : ∀ c ∈ whole, c.isDigit = true) (hf : ∀ c ∈ fraction, c.isDigit = true) :
    ∃ m, (m = .number ∨ m = .point) ∧ q.behind (whole ++ '.' :: fraction) = .right k m ∧
      (whole ≠ [] ∨ fraction ≠ [] → m = .number) := by
  obtain ⟨m, hm, hpoint, hnumber⟩ : ∃ m, (m = .number ∨ m = .point) ∧
      (q.behind whole).after '.' = .right k m ∧ (whole ≠ [] → m = .number) := by
    by_cases hne : whole = []
    · subst hne
      exact ⟨.point, .inr rfl, h.point, fun hne => absurd rfl hne⟩
    · refine ⟨.number, .inl rfl, ?_, fun _ => rfl⟩
      rw [h.digits hw hne]
      exact Place.after_of_extends rfl rfl (show Mark.number.extend? '.' = some .number from rfl)
  rw [Place.behind_append, Place.behind_cons, hpoint]
  by_cases hne : fraction = []
  · subst hne
    exact ⟨m, hm, rfl, fun hne => hnumber (by simpa using hne)⟩
  · exact ⟨.number, .inl rfl, Place.behind_of_run (Mark.run_digits hf hm (.inl hne)), fun _ => rfl⟩

theorem Done.name (h : Done k q (c :: s)) (hc : isNameStart c = true) :
    q.after c = .right k (.name [c] q.expects) := by
  have hname := isNameChar_of_isNameStart hc
  have hpoint : c ∉ ['/', ':', '.'] := by
    simp only [List.mem_cons, List.not_mem_nil, or_false]
    rintro (rfl | rfl | rfl) <;> exact absurd hc (by decide)
  rw [h.fresh (isBlank_of_isNameChar hname) hpoint (isDigit_of_isNameStart hc),
    Place.fresh_of_isNameChar hname, Place.mark_of_isNameStart hc, h.brackets]

end Beginning

end MarkupQuery.Query
