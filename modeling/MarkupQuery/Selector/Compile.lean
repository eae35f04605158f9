import MarkupQuery.Selector.Compound
import MarkupQuery.Selector.Scan

namespace MarkupQuery.Selector

open MarkupQuery.Text

/-- Where the paths of a compiled selector start: anywhere in the document, or below the context
node. -/
inductive Anchor where
  | document
  | context
deriving DecidableEq, Repr

/-- Quotes a text as a string literal of a query, or as a concatenation of literals if it contains
both quote characters. -/
def literal (s : List Char) : List Char :=
  if !s.contains '\'' then '\'' :: s ++ ['\'']
  else if !s.contains '"' then '"' :: s ++ ['"']
  else
    let parts := (splitWhere (· == '\'') s).map fun part => '\'' :: part ++ ['\'']
    "concat(".toList ++ joinWith ", \"'\", ".toList parts ++ [')']

def Name.emit (name : Name) : List Char :=
  match name.qualifier with
  | some qualifier => qualifier.toList ++ ':' :: name.localName.toList
  | none => name.localName.toList

def wordTest (holder word : List Char) : List Char :=
  "contains(concat(' ', normalize-space(".toList ++ holder ++ "), ' '), ".toList ++
    literal (' ' :: word ++ [' ']) ++ [')']

def Filter.emit : Filter → List Char
  | .id value => "@id=".toList ++ literal value.toList
  | .className value => wordTest "@class".toList value.toList
  | .attribute name .equals value => '@' :: name.emit ++ '=' :: literal value.toList
  | .attribute name .includes value => wordTest ('@' :: name.emit) value.toList
  | .attribute name .contains value =>
    "contains(".toList ++ '@' :: name.emit ++ ", ".toList ++ literal value.toList ++ [')']

def Compound.emit (compound : Compound) : List Char :=
  (match compound.element with
    | some name => name.emit
    | none => ['*']) ++
  compound.filters.flatMap fun filter => '[' :: filter.emit ++ [']']

def Combinator.emit : Combinator → List Char
  | child => ['/']
  | descendant => ['/', '/']

def Anchor.emit : Anchor → List Char
  | document => []
  | context => ['.']

def emitBranch (anchor : Anchor) (branch : Branch) : List Char :=
  anchor.emit ++ branch.flatMap fun (combinator, compound) => combinator.emit ++ compound.emit

structure Compiled where
  branches : List String
deriving DecidableEq, Repr

def Compiled.query (compiled : Compiled) : String := " | ".intercalate compiled.branches

def compile (anchor : Anchor) (selector : String) : Except Error Compiled := do
  let tokens ← tokenize selector
  if tokens.isEmpty then .error .empty
  else
    let found ← branches selector tokens
    pure ⟨found.map fun branch => String.ofList (emitBranch anchor branch)⟩

end MarkupQuery.Selector
