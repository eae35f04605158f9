import MarkupQuery.Number.Numeral
import MarkupQuery.Query.Error
import MarkupQuery.Query.Name

namespace MarkupQuery.Query

open MarkupQuery.Text

/-!
The grammar of queries, one function per level of precedence. Every level takes the reader of
nested expressions as an argument, so the only recursion is the one in `expression`.
-/

def stringLiteral : Reader String
  | [] => none
  | q :: s =>
    if q = '\'' ∨ q = '"' then
      match s.dropWhile (· != q) with
      | [] => none
      | _ :: rest => some (String.ofList (s.takeWhile (· != q)), rest)
    else none

def predicate (nested : Reader Expr) : Reader Expr :=
  .map (fun (_, e, _) => e) <|
    .both (.spaced (.char '[')) (.both nested (.spaced (.char ']')))

def stepHead : Reader (Axis × NodeTest) :=
  .orElse (.map (fun _ => (.parent, .type .node)) (.word "..")) <|
  .orElse (.map (fun _ => (.self, .type .node)) (.word ".")) <|
  .orElse (.map (fun (_, test) => (.attribute, test)) (.both (.char '@') nodeTest)) <|
  .map (fun (axis, test) => (axis.getD .child, test)) (.both (.optional axis) nodeTest)

def step (nested : Reader Expr) : Reader Step :=
  .map (fun ((axis, test), predicates) => .mk axis test predicates) <|
    .both stepHead (.many (predicate nested))

/-- `//` or `/` with the step after it; `//` puts a step of its own in between. -/
def slashStep (nested : Reader Expr) : Reader (List Step) :=
  .map (fun (between, step) => between ++ [step]) <|
    .both
      (.orElse (.map (fun _ => [Step.anywhereBelow]) (.word "//")) (.map (fun _ => []) (.char '/')))
      (step nested)

def slashSteps (nested : Reader Expr) : Reader (List Step) :=
  .map List.flatten (.many (slashStep nested))

def absolutePath (nested : Reader Expr) : Reader Expr := fun s =>
  match Reader.word "//" s with
  | some (_, rest) =>
    Reader.map (fun (first, more) => .absolute (Step.anywhereBelow :: first :: more))
      (.both (step nested) (slashSteps nested)) rest
  | none =>
    Reader.map (fun (_, first, more) => .absolute (first.toList ++ more))
      (.both (.char '/') (.both (.optional (step nested)) (slashSteps nested))) s

def relativePath (nested : Reader Expr) : Reader Expr :=
  .map (fun (first, more) => .relative (first :: more)) (.both (step nested) (slashSteps nested))

def locationPath (nested : Reader Expr) : Reader Expr := fun s =>
  match s with
  | '/' :: _ => absolutePath nested s
  | _ => relativePath nested s

def isTypeName (name : Option String × String) : Bool := name.1.isNone && isNodeTypeName name.2

def joinName : Option String × String → String
  | (some qualifier, localName) => qualifier ++ ":" ++ localName
  | (none, localName) => localName

def functionCall (nested : Reader Expr) : Reader Expr := fun s => do
  let (name, rest) ← qualifiedName s
  let (_, rest) ← Reader.char '(' (skipSpace rest)
  if isTypeName name then none
  else
    let (arguments, rest) ← Reader.separated (.spaced (.char ',')) nested rest
    let (_, rest) ← Reader.char ')' rest
    pure (.call (joinName name) arguments, rest)

def parenthesized (nested : Reader Expr) : Reader Expr :=
  .map (fun (_, e, _) => e) <|
    .both (.spaced (.char '(')) (.both nested (.spaced (.char ')')))

def primary (nested : Reader Expr) : Reader Expr :=
  .spaced <|
    .orElse (.map .number Number.numeral?) <|
    .orElse (.map .literal stringLiteral) <|
    .orElse (functionCall nested) (parenthesized nested)

def filtered (nested : Reader Expr) : Reader Expr :=
  .map (fun (e, predicates) => if predicates.isEmpty then e else .filter e predicates) <|
    .both (primary nested) (.many (predicate nested))

/-- Appends steps to a path, or makes the expression the start of a path. -/
def Expr.continueBy (e : Expr) (more : List Step) : Expr :=
  if more.isEmpty then e
  else match e with
    | .relative steps => .relative (steps ++ more)
    | .absolute steps => .absolute (steps ++ more)
    | .continued start steps => .continued start (steps ++ more)
    | e => .continued e more

/-- A primary expression is tried first, because a call would otherwise be read as a step. -/
def path (nested : Reader Expr) : Reader Expr :=
  .map (fun (e, more) => e.continueBy more) <|
    .both (.orElse (filtered nested) (locationPath nested)) (slashSteps nested)

def leftChain (operand : Reader Expr) (operator : Reader BinaryOp) : Reader Expr :=
  .map (fun (first, more) => more.foldl (fun left (op, right) => .binary op left right) first) <|
    .both operand (.many (.both (.spaced operator) operand))

def operatorChar (op : BinaryOp) (c : Char) : Reader BinaryOp := .map (fun _ => op) (.char c)

def operatorWord (op : BinaryOp) (text : String) : Reader BinaryOp :=
  .map (fun _ => op) (.word text)

def operatorName (op : BinaryOp) (text : String) : Reader BinaryOp :=
  .map (fun _ => op) (wholeWord text)

def equalityOp : Reader BinaryOp :=
  .orElse (operatorChar .equals '=') (operatorWord .notEquals "!=")

/-- Relational operators may be written with the entities of markup. -/
def relationalOp : Reader BinaryOp :=
  .orElse (operatorWord .lessOrEqual "<=") <|
  .orElse (operatorWord .lessOrEqual "&lt;=") <|
  .orElse (operatorWord .greaterOrEqual ">=") <|
  .orElse (operatorWord .greaterOrEqual "&gt;=") <|
  .orElse (operatorChar .less '<') <|
  .orElse (operatorWord .less "&lt;") <|
  .orElse (operatorChar .greater '>') (operatorWord .greater "&gt;")

def additiveOp : Reader BinaryOp := .orElse (operatorChar .plus '+') (operatorChar .minus '-')

def multiplicativeOp : Reader BinaryOp :=
  .orElse (operatorChar .times '*') <|
  .orElse (operatorName .divide "div") (operatorName .modulo "mod")

def unionExpr (nested : Reader Expr) : Reader Expr :=
  leftChain (path nested) (operatorChar .union '|')

def unaryExpr (nested : Reader Expr) : Reader Expr :=
  .map (fun (sign, e) => if sign.isSome then .negate e else e) <|
    .both (.optional (.spaced (.char '-'))) (unionExpr nested)

def multiplicativeExpr (nested : Reader Expr) : Reader Expr :=
  leftChain (unaryExpr nested) multiplicativeOp

def additiveExpr (nested : Reader Expr) : Reader Expr :=
  leftChain (multiplicativeExpr nested) additiveOp

def relationalExpr (nested : Reader Expr) : Reader Expr :=
  leftChain (additiveExpr nested) relationalOp

def equalityExpr (nested : Reader Expr) : Reader Expr :=
  leftChain (relationalExpr nested) equalityOp

def andExpr (nested : Reader Expr) : Reader Expr :=
  leftChain (equalityExpr nested) (operatorName .and "and")

def orExpr (nested : Reader Expr) : Reader Expr :=
  leftChain (andExpr nested) (operatorName .or "or")

def expressionUpTo : Nat → Reader Expr
  | 0 => fun _ => none
  | depth + 1 => orExpr (expressionUpTo depth)

/-- Every level of nesting takes a character, so the length of the text bounds the depth. -/
def expression : Reader Expr := fun s => expressionUpTo (s.length + 1) s

def parse (query : String) : Except Error Expr :=
  match expression (trim query.toList) with
  | some (e, []) => .ok e
  | some (_, rest) => .error (.unparsed query (some (String.ofList rest)))
  | none => .error (.unparsed query none)

end MarkupQuery.Query
