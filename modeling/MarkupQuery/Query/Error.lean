namespace MarkupQuery.Query

inductive Arity where
  | exactly (n : Nat)
  | atLeast (n : Nat)
  | between (low high : Nat)
deriving DecidableEq, Repr

inductive Error where
  /-- The part of the query after the longest expression, or nothing if it starts with none. -/
  | unparsed (query : String) (rest : Option String)
  | unknownFunction (name : String)
  | wrongArity (function : String) (arity : Arity) (given : Nat)
  /-- An argument that is not a node-set, as it is shown in messages. -/
  | notNodes (function : String) (given : String)
  | filterOfValue
  | pathFromValue
  | unionOfValue (side : String)
  | unboundQualifier (qualifier : String)
  | selectsValue (query : String)
deriving DecidableEq, Repr

def Arity.message : Arity → String
  | exactly n => toString n ++ " argument(s)"
  | atLeast n => "at least " ++ toString n ++ " arguments"
  | between low high => toString low ++ " to " ++ toString high ++ " arguments"

private def functionMessage (function detail : String) : String :=
  "Function '" ++ function ++ "' error: " ++ detail

def Error.message : Error → String
  | unparsed query none => "XPath parse error in '" ++ query ++ "'"
  | unparsed query (some rest) =>
    "XPath parse error in '" ++ query ++
      "': Parser did not consume all input. Remainder: '" ++ rest ++ "'"
  | unknownFunction name => functionMessage name "Unknown XPath function"
  | wrongArity function arity given =>
    functionMessage (function ++ "()")
      ("Expected " ++ arity.message ++ ", got " ++ toString given)
  | notNodes function given =>
    "Type error: " ++ function ++ "() argument must be a node-set, got " ++ given
  | filterOfValue => "Type error: Only a node-set can be filtered by a predicate."
  | pathFromValue => "Type error: A path can only continue from a node-set."
  | unionOfValue side => "Type error: " ++ side ++ " side of '|' must be a node-set."
  | unboundQualifier qualifier => "Namespace prefix '" ++ qualifier ++ "' is not bound"
  | selectsValue query => "Expression '" ++ query ++ "' does not select a node-set"

end MarkupQuery.Query
