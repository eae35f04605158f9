import MarkupQuery.Text.Blank
import MarkupQuery.Text.Search

namespace MarkupQuery.Query

open MarkupQuery.Text

/-- Reads a value off the start of a text and gives what follows it. -/
abbrev Reader (α : Type) := List Char → Option (α × List Char)

namespace Reader

variable {α β : Type}

def map (f : α → β) (p : Reader α) : Reader β := fun s =>
  (p s).map fun (a, rest) => (f a, rest)

def orElse (p q : Reader α) : Reader α := fun s =>
  match p s with
  | some found => some found
  | none => q s

def both (p : Reader α) (q : Reader β) : Reader (α × β) := fun s => do
  let (a, rest) ← p s
  let (b, rest) ← q rest
  pure ((a, b), rest)

def word (text : String) : Reader Unit := fun s =>
  (afterStart? text.toList s).map fun rest => ((), rest)

def char (c : Char) : Reader Unit
  | d :: rest => if d = c then some ((), rest) else none
  | [] => none

def spaced (p : Reader α) : Reader α := fun s =>
  (p (skipSpace s)).map fun (a, rest) => (a, skipSpace rest)

def optional (p : Reader α) : Reader (Option α) := fun s =>
  match p s with
  | some (a, rest) => some (some a, rest)
  | none => some (none, s)

def manyUpTo (p : Reader α) : Nat → List Char → List α × List Char
  | 0, s => ([], s)
  | fuel + 1, s =>
    match p s with
    | none => ([], s)
    | some (a, rest) =>
      let (more, rest) := manyUpTo p fuel rest
      (a :: more, rest)

/-- As many values in a row as can be read; each has to take at least one character. -/
def many (p : Reader α) : Reader (List α) := fun s => some (manyUpTo p s.length s)

/-- Values with `separator` between them, possibly none; it stops before a separator that no value
follows. -/
def separated (separator : Reader Unit) (p : Reader α) : Reader (List α) := fun s =>
  match p s with
  | none => some ([], s)
  | some (first, rest) =>
    (many (map Prod.snd (both separator p)) rest).map fun (more, rest) => (first :: more, rest)

end Reader

end MarkupQuery.Query
