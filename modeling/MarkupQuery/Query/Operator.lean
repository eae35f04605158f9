import MarkupQuery.Number.Binary
import MarkupQuery.Query.Error
import MarkupQuery.Query.Expr
import MarkupQuery.Query.Order
import MarkupQuery.Query.Value

namespace MarkupQuery.Query

open MarkupQuery.Tree (Document)

/-- Whether two values are equal: as booleans if one of them is, else as numbers if one of them is,
else as texts. -/
def Scalar.equals : Scalar → Scalar → Bool
  | .text a, .text b => a == b
  | .boolean a, b => a == b.toBool
  | a, .boolean b => a.toBool == b
  | a, b => a.toNumber == b.toNumber

def Scalar.compare (op : BinaryOp) (a b : Scalar) : Bool :=
  match op with
  | .equals => a.equals b
  | .notEquals => !a.equals b
  | .less => a.toNumber < b.toNumber
  | .lessOrEqual => a.toNumber ≤ b.toNumber
  | .greater => b.toNumber < a.toNumber
  | .greaterOrEqual => b.toNumber ≤ a.toNumber
  | _ => false

def Value.comparands (doc : Document) : Value → Value → List Scalar
  | .scalar value, _ => [value]
  | .nodes sites, .scalar (.boolean _) => [.boolean (!sites.isEmpty)]
  | .nodes sites, .scalar (.number _) =>
    sites.map fun site => .number (Number.ofText (site.value doc).toList)
  | .nodes sites, _ => sites.map fun site => .text (site.value doc)

/-- A comparison with a node-set holds if it holds for one of its nodes. -/
def Value.compare (doc : Document) (op : BinaryOp) (left right : Value) : Bool :=
  let rights := right.comparands doc left
  (left.comparands doc right).any fun a => rights.any fun b => Scalar.compare op a b

def merge (source : Ranked) : Value → Value → Except Error Value
  | .nodes left, .nodes right => .ok (.nodes (source.ordered (left ++ right)))
  | .nodes _, .scalar _ => .error (.unionOfValue "Right-hand")
  | .scalar _, _ => .error (.unionOfValue "Left-hand")

def BinaryOp.apply (source : Ranked) (op : BinaryOp) (left right : Value) : Except Error Value :=
  let doc := source.document
  let numbers := fun (f : Float → Float → Float) =>
    Except.ok (.number (f (left.toNumber doc) (right.toNumber doc)))
  match op with
  | .or => .ok (.boolean (left.toBool || right.toBool))
  | .and => .ok (.boolean (left.toBool && right.toBool))
  | .plus => numbers (· + ·)
  | .minus => numbers (· - ·)
  | .times => numbers (· * ·)
  | .divide => numbers (· / ·)
  | .modulo => numbers Number.remainder
  | .union => merge source left right
  | op => .ok (.boolean (Value.compare doc op left right))

end MarkupQuery.Query
