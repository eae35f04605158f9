import MarkupQuery.Query.Name

namespace MarkupQuery.Page

open MarkupQuery.Text

/-!
Restricting a query to what is below a context, by putting the address of the context in front of
every branch of the query.
-/

/-- How deep a place is inside brackets, and the quote that it stands between. -/
structure Nesting where
  depth : Nat := 0
  quote : Option Char := none
deriving DecidableEq, Repr

/-- The nesting behind a character. Inside quotes only the closing quote counts. -/
def Nesting.after (n : Nesting) (c : Char) : Nesting :=
  match n.quote with
  | some q => if c == q then { n with quote := none } else n
  | none =>
    if c == '\'' || c == '"' then { n with quote := some c }
    else if c == '[' || c == '(' then { n with depth := n.depth + 1 }
    else if c == ']' || c == ')' then { n with depth := n.depth - 1 }
    else n

def Nesting.endsBranch (n : Nesting) (c : Char) : Bool :=
  c == '|' && n.depth == 0 && n.quote.isNone

/-- The branches of a query, cut at the bars outside of quotes and brackets. -/
def branchesFrom (n : Nesting) : List Char → List (List Char)
  | [] => [[]]
  | c :: rest =>
    if n.endsBranch c then [] :: branchesFrom n rest
    else match branchesFrom (n.after c) rest with
      | [] => [[c]]
      | first :: more => (c :: first) :: more

def branches (query : List Char) : List (List Char) := branchesFrom {} query

def upToClose (depth : Nat) (quote : Option Char) : List Char → Option (List Char × List Char)
  | [] => none
  | c :: rest =>
    let further := fun depth quote =>
      (upToClose depth quote rest).map fun (inside, after) => (c :: inside, after)
    match quote with
    | some q => further depth (if c == q then none else some q)
    | none =>
      if c == '\'' || c == '"' then further depth (some c)
      else if c == '(' then further (depth + 1) none
      else if c == ')' then
        match depth with
        | 0 => some ([], rest)
        | depth + 1 => further depth none
      else further depth none

def parenthesized? : List Char → Option (List Char × List Char)
  | '(' :: rest => upToClose 0 none rest
  | _ => none

/-- A branch below a context. `nested` scopes what stands in parentheses. -/
def scopeBranch (nested : List Char → List Char) (context branch : List Char) : List Char :=
  if branch == ['.'] then context
  else match parenthesized? branch with
    | some (inside, after) => '(' :: nested inside ++ ')' :: after
    | none =>
      match branch with
      | '.' :: '/' :: rest => context ++ '/' :: rest
      | '/' :: _ => context ++ branch
      | _ => context ++ '/' :: branch

def scopeUpTo (context : List Char) : Nat → List Char → List Char
  | 0, query => query
  | depth + 1, query =>
    joinWith " | ".toList ((branches query).map fun branch =>
      scopeBranch (scopeUpTo context depth) context (trim branch))

/-- A query below a context that is given by its address. Parentheses take characters, so the length
of the query bounds their depth. -/
def scope (context query : String) : String :=
  String.ofList (scopeUpTo context.toList (query.toList.length + 1) query.toList)

def isCallChar (c : Char) : Bool :=
  isLetterOrNumeral c || c == '_' || c == '-' || c == '.' || c == ':'

/-- Whether a branch starts with a function call. Node types are no functions. -/
def startsWithCall (branch : List Char) : Bool :=
  let body := trimStart branch
  let name := body.takeWhile isCallChar
  let rest := trimStart (body.dropWhile isCallChar)
  -- two colons follow an axis, and the names of node types call no function
  (name.head?.any fun c => isLetter c || c == '_') && !contains name "::".toList &&
    rest.head? == some '(' && !Query.isNodeTypeName (String.ofList name)

def callsFirst (query : String) : Bool := (branches query.toList).any startsWithCall

end MarkupQuery.Page
