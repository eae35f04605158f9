import MarkupQuery.Proofs.Query.Arguments

namespace MarkupQuery.Query

open MarkupQuery.Text

structure Numeral where
  whole : List Char
  fraction : List Char
  whole_digits : ∀ c ∈ whole, c.isDigit = true
  fraction_digits : ∀ c ∈ fraction, c.isDigit = true
  nonempty : whole ≠ [] ∨ fraction ≠ []

namespace Numeral

theorem digits_nil : ∀ c ∈ ([] : List Char), c.isDigit = true := List.forall_mem_nil _

def text (n : Numeral) : List Char :=
  n.whole ++ if n.fraction = [] then [] else '.' :: n.fraction

def value (n : Numeral) : Float := Number.ofDigits n.whole n.fraction

def isMixed (n : Numeral) : Bool := !n.whole.isEmpty && !n.fraction.isEmpty

/-- What is read off a numeral that a query ends with. -/
def lastValue (n : Numeral) : Float :=
  if n.isMixed then Number.ofDigits n.whole [] else n.value

end Numeral

def Axis.word : Axis → String
  | .child => "child"
  | .descendant => "descendant"
  | .descendantOrSelf => "descendant-or-self"
  | .attribute => "attribute"
  | .parent => "parent"
  | .ancestor => "ancestor"
  | .ancestorOrSelf => "ancestor-or-self"
  | .self => "self"
  | .followingSibling => "following-sibling"
  | .precedingSibling => "preceding-sibling"
  | .following => "following"
  | .preceding => "preceding"

def NodeType.word : NodeType → String
  | .text => "text"
  | .node => "node"
  | .comment => "comment"
  | .instruction => "processing-instruction"

def NodeTest.text : NodeTest → List Char
  | .name none localName => localName.toList
  | .name (some qualifier) localName => qualifier.toList ++ ':' :: localName.toList
  | .anyIn qualifier => qualifier.toList ++ [':', '*']
  | .any => ['*']
  | .type kind => kind.word.toList ++ ['(', ')']

def BinaryOp.word : BinaryOp → String
  | .or => "or"
  | .and => "and"
  | .equals => "="
  | .notEquals => "!="
  | .less => "<"
  | .lessOrEqual => "<="
  | .greater => ">"
  | .greaterOrEqual => ">="
  | .plus => "+"
  | .minus => "-"
  | .times => "*"
  | .divide => "div"
  | .modulo => "mod"
  | .union => "|"

def BinaryOp.level : BinaryOp → Nat
  | .or => 0
  | .and => 1
  | .equals | .notEquals => 2
  | .less | .lessOrEqual | .greater | .greaterOrEqual => 3
  | .plus | .minus => 4
  | .times | .divide | .modulo => 5
  | .union => 7

/-- The level of an expression. Behind those of the operators, 6 is the level of the minus sign, 8
that of paths, 9 that of filters, and 10 that of what needs no parentheses anywhere. -/
def Expr.level : Expr → Nat
  | .binary op _ _ => op.level
  | .negate _ => 6
  | .relative _ | .absolute _ | .continued _ _ => 8
  | .filter _ _ => 9
  | .literal _ | .number _ | .call _ _ => 10

def grouped (needed own : Nat) (text : List Char) : List Char :=
  if own < needed then '(' :: text ++ [')'] else text

def quotedText (value : List Char) : List Char :=
  let q := if '\'' ∈ value then '"' else '\''
  q :: value ++ [q]

def predicatesText (texts : List (List Char)) : List Char :=
  texts.flatMap fun text => '[' :: text ++ [']']

section Text

variable (numeral : Float → Numeral)

mutual

/-- The text of an expression, with numbers written by `numeral`. -/
def Expr.text : Expr → List Char
  | .literal value => quotedText value.toList
  | .number value => (numeral value).text
  | .relative steps => joinWith ['/'] (stepTexts steps)
  | .absolute steps => '/' :: joinWith ['/'] (stepTexts steps)
  | .continued start steps =>
    grouped 9 start.level start.text ++ '/' :: joinWith ['/'] (stepTexts steps)
  | .call name arguments => callText name (exprTexts arguments)
  | .binary op left right =>
    grouped op.level left.level left.text ++ ' ' :: (op.word.toList ++
      ' ' :: grouped (op.level + 1) right.level right.text)
  | .negate operand => '-' :: grouped 7 operand.level operand.text
  | .filter operand predicates =>
    grouped 10 operand.level operand.text ++ predicatesText (exprTexts predicates)

def Step.text : Step → List Char
  | .mk axis test predicates =>
    axis.word.toList ++ ':' :: ':' :: (test.text ++ predicatesText (exprTexts predicates))

def stepTexts : List Step → List (List Char)
  | [] => []
  | step :: steps => step.text :: stepTexts steps

def exprTexts : List Expr → List (List Char)
  | [] => []
  | e :: es => e.text :: exprTexts es

end

end Text

/-- `name` or `qualifier:name`, and not the name of a node type. -/
def IsFunctionName (name : String) : Prop :=
  IsPlain name ∧ isNodeTypeName name = false ∨
    ∃ qualifier localName, IsPlain qualifier ∧ IsPlain localName ∧
      name = joinName (some qualifier, localName)

def NodeTest.Printable : NodeTest → Prop
  | .name qualifier localName => (∀ q ∈ qualifier, IsPlain q) ∧ IsPlain localName
  | .anyIn qualifier => IsPlain qualifier
  | .any | .type _ => True

section Printable

variable (numeral : Float → Numeral)

mutual

/-- Expressions that can be written: names can be read, no literal contains both quotes, numbers are
the values of their numerals, filters have predicates, and a path has steps unless it is absolute
and starts nowhere else but in an expression that is no path. -/
def Expr.Printable : Expr → Prop
  | .literal value => '\'' ∉ value.toList ∨ '"' ∉ value.toList
  | .number value => (numeral value).value = value
  | .relative steps => steps ≠ [] ∧ StepsPrintable steps
  | .absolute steps => StepsPrintable steps
  | .continued start steps =>
    start.isPath = false ∧ start.Printable ∧ steps ≠ [] ∧ StepsPrintable steps
  | .call name arguments => IsFunctionName name ∧ AllPrintable arguments
  | .binary _ left right => left.Printable ∧ right.Printable
  | .negate operand => operand.Printable
  | .filter operand predicates =>
    operand.Printable ∧ predicates ≠ [] ∧ AllPrintable predicates

def Step.Printable : Step → Prop
  | .mk _ test predicates => test.Printable ∧ AllPrintable predicates

def StepsPrintable : List Step → Prop
  | [] => True
  | step :: steps => step.Printable ∧ StepsPrintable steps

def AllPrintable : List Expr → Prop
  | [] => True
  | e :: es => e.Printable ∧ AllPrintable es

end

end Printable

section Last

variable (numeral : Float → Numeral)

def Expr.endsMixed : Expr → Bool
  | .number value => (numeral value).isMixed
  | .binary op _ right => decide (op.level + 1 ≤ right.level) && right.endsMixed
  | .negate operand => decide (7 ≤ operand.level) && operand.endsMixed
  | _ => false

/-- What is read off the text of an expression at the end of a query. -/
def Expr.readLast : Expr → Expr
  | .number value => .number (numeral value).lastValue
  | .binary op left right =>
    .binary op left (if right.level < op.level + 1 then right else right.readLast)
  | .negate operand => .negate (if operand.level < 7 then operand else operand.readLast)
  | e => e

end Last

end MarkupQuery.Query
