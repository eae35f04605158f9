namespace MarkupQuery.Query

inductive BinaryOp where
  | or
  | and
  | equals
  | notEquals
  | less
  | lessOrEqual
  | greater
  | greaterOrEqual
  | plus
  | minus
  | times
  | divide
  | modulo
  | union
deriving DecidableEq, Repr

inductive Axis where
  | child
  | descendant
  | descendantOrSelf
  | attribute
  | parent
  | ancestor
  | ancestorOrSelf
  | self
  | followingSibling
  | precedingSibling
  | following
  | preceding
deriving DecidableEq, Repr

/-- Reverse axes list the nearest node first, so against document order. -/
def Axis.isReverse : Axis → Bool
  | ancestor | ancestorOrSelf | precedingSibling | preceding => true
  | _ => false

inductive NodeType where
  | text
  | node
  | comment
  | instruction
deriving DecidableEq, Repr

inductive NodeTest where
  | name (qualifier : Option String) (localName : String)
  /-- Any name in the namespace bound to `qualifier`. -/
  | anyIn (qualifier : String)
  | any
  | type (type : NodeType)
deriving DecidableEq, Repr

mutual

inductive Expr where
  | literal (value : String)
  | number (value : Float)
  /-- Steps from the context node. -/
  | relative (steps : List Step)
  /-- Steps from the document node. -/
  | absolute (steps : List Step)
  /-- Steps from the nodes of another expression. -/
  | continued (start : Expr) (steps : List Step)
  | call (name : String) (arguments : List Expr)
  | binary (op : BinaryOp) (left right : Expr)
  | negate (operand : Expr)
  /-- Nodes filtered by predicates that count in document order. -/
  | filter (operand : Expr) (predicates : List Expr)

inductive Step where
  | mk (axis : Axis) (test : NodeTest) (predicates : List Expr)

end

instance : Inhabited Expr := ⟨.literal ""⟩

def Step.anywhereBelow : Step := .mk .descendantOrSelf (.type .node) []

def NodeTest.qualifiers : NodeTest → List String
  | name (some qualifier) _ => [qualifier]
  | anyIn qualifier => [qualifier]
  | _ => []

mutual

def Expr.qualifiers : Expr → List String
  | .literal _ | .number _ => []
  | .relative steps | .absolute steps => stepsQualifiers steps
  | .continued start steps => start.qualifiers ++ stepsQualifiers steps
  | .call _ arguments => listQualifiers arguments
  | .binary _ left right => left.qualifiers ++ right.qualifiers
  | .negate operand => operand.qualifiers
  | .filter operand predicates => operand.qualifiers ++ listQualifiers predicates

def Step.qualifiers : Step → List String
  | .mk _ test predicates => test.qualifiers ++ listQualifiers predicates

def stepsQualifiers : List Step → List String
  | [] => []
  | step :: steps => step.qualifiers ++ stepsQualifiers steps

def listQualifiers : List Expr → List String
  | [] => []
  | e :: es => e.qualifiers ++ listQualifiers es

end

/-- A location path, with or without a start of its own. -/
def Expr.isPath : Expr → Bool
  | .relative _ | .absolute _ | .continued _ _ => true
  | _ => false

def Expr.isBinary : Expr → Bool
  | .binary _ _ _ => true
  | _ => false

end MarkupQuery.Query
