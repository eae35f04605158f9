namespace MarkupQuery.Selector

inductive Fault where
  | unopenedBracket
  | unclosedBracket
  | strayString
  | nameExpected (after : Char)
  | unexpected (c : Char)
  | unclosedString
  | attributeTest
  | elementInside
  | combinatorFirst
  | combinatorLast
deriving DecidableEq, Repr

inductive Feature where
  | pseudoClass
  | siblingCombinator
  | attributeOperator
  | attributePresence
  | anyNamespace
deriving DecidableEq, Repr

/-- Why a selector cannot be compiled; offsets count UTF-8 bytes of the selector. -/
inductive Error where
  | empty
  | emptyBranch (selector : String) (offset : Nat)
  | malformed (selector : String) (offset : Nat) (fault : Fault)
  | unsupported (selector : String) (offset : Nat) (feature : Feature)
deriving DecidableEq, Repr

def Fault.message : Fault → String
  | unopenedBracket => "unbalanced ']'"
  | unclosedBracket => "unbalanced '['"
  | strayString => "unexpected string"
  | nameExpected c => "expected a name after '" ++ c.toString ++ "'"
  | unexpected c => "unexpected '" ++ c.toString ++ "'"
  | unclosedString => "unterminated string"
  | attributeTest => "malformed attribute selector"
  | elementInside => "element name must start a compound selector"
  | combinatorFirst => "combinator without a preceding selector"
  | combinatorLast => "combinator without a following selector"

def Feature.name : Feature → String
  | pseudoClass => "pseudo-class"
  | siblingCombinator => "sibling combinator"
  | attributeOperator => "attribute operator"
  | attributePresence => "attribute presence selector"
  | anyNamespace => "any-namespace qualifier"

def Error.offset? : Error → Option Nat
  | empty => none
  | emptyBranch _ offset | malformed _ offset _ | unsupported _ offset _ => some offset

private def placed (offset : Nat) (selector : String) : String :=
  " at offset " ++ toString offset ++ " of '" ++ selector ++ "'"

def Error.message : Error → String
  | empty => "Empty selector"
  | emptyBranch selector offset => "Empty selector in list" ++ placed offset selector
  | malformed selector offset fault =>
    "Selector syntax error" ++ placed offset selector ++ ": " ++ fault.message
  | unsupported selector offset feature =>
    "Unsupported " ++ feature.name ++ placed offset selector

end MarkupQuery.Selector
