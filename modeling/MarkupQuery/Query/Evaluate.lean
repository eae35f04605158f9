import MarkupQuery.Query.Axis
import MarkupQuery.Query.CoreFunction
import MarkupQuery.Query.NodeTest
import MarkupQuery.Query.Operator
import MarkupQuery.Query.Grammar

namespace MarkupQuery.Query

open MarkupQuery.Tree (Document)

structure Setting where
  source : Ranked
  root : Site := .document
  bindings : Bindings := []

/-- A number in a predicate asks for a position. -/
def Value.holdsAt (position : Nat) : Value → Bool
  | .scalar (.number x) => x == Float.ofNat position
  | value => value.toBool

def keepWhere (test : Focus → Except Error Value) (size : Nat) :
    Nat → List Site → Except Error (List Site)
  | _, [] => .ok []
  | position, site :: rest => do
    let value ← test ⟨site, position, size⟩
    let more ← keepWhere test size (position + 1) rest
    pure (if value.holdsAt position then site :: more else more)

/-- Merges what a step finds from each of several sites. What it finds from one on a forward axis is
in order by itself. -/
def mergeFound (source : Ranked) (axis : Axis) (found : List (List Site)) : List Site :=
  if found.length > 1 || axis.isReverse then source.ordered found.flatten else found.flatten

mutual

/-- Evaluates an expression. Arguments are evaluated before a function is looked up. -/
def evaluate (s : Setting) (focus : Focus) : Expr → Except Error Value
  | .literal value => .ok (.text value)
  | .number value => .ok (.number value)
  | .relative steps => (takeSteps s steps [focus.site]).map .nodes
  | .absolute steps => (takeSteps s steps [s.root]).map .nodes
  | .continued start steps => do
    match ← evaluate s focus start with
    | .nodes sites => (takeSteps s steps sites).map .nodes
    | .scalar _ => .error .pathFromValue
  | .call name arguments => do
    let values ← evaluateAll s focus arguments
    callFunction s.source s.root focus name values
  | .binary op left right => do
    let left ← evaluate s focus left
    let right ← evaluate s focus right
    op.apply s.source left right
  | .negate operand => do
    let value ← evaluate s focus operand
    pure (.number (-(value.toNumber s.source.document)))
  | .filter operand predicates => do
    match ← evaluate s focus operand with
    | .nodes sites => (keepAll s predicates (s.source.ordered sites)).map .nodes
    | .scalar _ => .error .filterOfValue

def evaluateAll (s : Setting) (focus : Focus) : List Expr → Except Error (List Value)
  | [] => .ok []
  | e :: rest => do
    let value ← evaluate s focus e
    let more ← evaluateAll s focus rest
    pure (value :: more)

/-- The sites for which all predicates hold, each predicate counting what the one before kept. -/
def keepAll (s : Setting) : List Expr → List Site → Except Error (List Site)
  | [], sites => .ok sites
  | predicate :: rest, sites => do
    let kept ← keepWhere (fun focus => evaluate s focus predicate) sites.length 1 sites
    keepAll s rest kept

/-- Takes a step from each site. The prefix of the test is resolved even if there is none. -/
def takeStep (s : Setting) : Step → List Site → Except Error (List Site)
  | .mk axis test predicates, sites => do
    let test ← test.resolve s.bindings
    let doc := s.source.document
    let found ← sites.mapM fun site =>
      keepAll s predicates ((axis.sites doc site).filter fun other => test.admits doc axis other)
    pure (mergeFound s.source axis found)

def takeSteps (s : Setting) : List Step → List Site → Except Error (List Site)
  | [], sites => .ok sites
  | step :: rest, sites => do
    let found ← takeStep s step sites
    takeSteps s rest found

end

def unbound? (bindings : Bindings) (e : Expr) : Option String :=
  e.qualifiers.find? fun qualifier => qualifier != "xml" && (bindings.lookup qualifier).isNone

/-- The nodes that a query selects. All its prefixes have to be bound, also those that no step
reaches. -/
def select (s : Setting) (context : Site) (query : String) : Except Error (List Site) := do
  let e ← parse query
  match unbound? s.bindings e with
  | some qualifier => .error (.unboundQualifier qualifier)
  | none =>
    match ← evaluate s { site := context } e with
    | .nodes sites => .ok sites
    | .scalar _ => .error (.selectsValue query)

end MarkupQuery.Query
