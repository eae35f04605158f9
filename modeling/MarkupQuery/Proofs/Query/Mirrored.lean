import MarkupQuery.Query.Evaluate
import MarkupQuery.Tree.Graft

namespace MarkupQuery.Number

open Float.Model Float.Model.UnpackedFloat

theorem compare_sign_swap (s t : Sign) : (compare s t).swap = compare t s := by
  cases s <;> cases t <;> rfl

/-- Magnitudes are compared by their exponents first. -/
theorem compare_magnitude_swap (m n : Nat) (e f : Int) :
    ((compare e f).then (compare m n)).swap = (compare f e).then (compare n m) := by
  have hexponents : compare f e = (compare e f).swap := Std.OrientedCmp.eq_swap
  have hmagnitudes : compare n m = (compare m n).swap := Std.OrientedCmp.eq_swap
  rw [Ordering.swap_then, hexponents, hmagnitudes]

/-- Exchanging two doubles swaps the outcome of their comparison, if there is one. -/
theorem compare_swap (x y : UnpackedFloat) : (x.compare y).map Ordering.swap = y.compare x := by
  cases x with
  | notANumber => cases y <;> rfl
  | infinity s =>
    cases y with
    | infinity t => exact congrArg some (compare_sign_swap s t)
    | _ => cases s <;> rfl
  | zero s =>
    cases y with
    | notANumber => rfl
    | zero t => rfl
    | infinity t => cases t <;> rfl
    | finite t => cases t <;> rfl
  | finite s m e =>
    cases y with
    | notANumber => cases s <;> rfl
    | zero t => cases s <;> rfl
    | infinity t => cases s <;> cases t <;> rfl
    | finite t n f =>
      cases s <;> cases t
      · exact congrArg some (congrArg Ordering.swap (compare_magnitude_swap m n e f))
      · rfl
      · rfl
      · exact congrArg some (compare_magnitude_swap m n e f)

/-- Equality of doubles is symmetric; what is not a number is not equal to itself. -/
theorem beq_comm (x y : Float) : (x == y) = (y == x) := by
  have hswap := compare_swap x.toModel.unpack y.toModel.unpack
  have heq : ∀ found : Option Ordering,
      (found == some .eq) = (found.map Ordering.swap == some .eq) := by
    intro found
    rcases found with _ | _ | _ | _ <;> rfl
  show (x.toModel.unpack.compare y.toModel.unpack == some .eq) =
    (y.toModel.unpack.compare x.toModel.unpack == some .eq)
  rw [← hswap, ← heq]

end MarkupQuery.Number

namespace MarkupQuery.Query

open MarkupQuery.Tree (Document)

def BinaryOp.IsComparison : BinaryOp → Prop
  | .equals | .notEquals | .less | .lessOrEqual | .greater | .greaterOrEqual => True
  | _ => False

def BinaryOp.mirrored : BinaryOp → BinaryOp
  | .less => .greater
  | .lessOrEqual => .greaterOrEqual
  | .greater => .less
  | .greaterOrEqual => .lessOrEqual
  | op => op

theorem BinaryOp.IsComparison.mirrored {op : BinaryOp} (h : op.IsComparison) :
    op.mirrored.IsComparison := by
  cases op <;> trivial

namespace Scalar

/-- Which operand comes first does not decide as what two values are compared. -/
theorem equals_comm (a b : Scalar) : a.equals b = b.equals a := by
  cases a with
  | text v =>
    cases b with
    | text w => exact BEq.comm
    | number y => exact Number.beq_comm _ _
    | boolean c => exact BEq.comm
  | number x =>
    cases b with
    | text w => exact Number.beq_comm _ _
    | number y => exact Number.beq_comm _ _
    | boolean c => exact BEq.comm
  | boolean c => cases b <;> exact BEq.comm

theorem compare_mirrored (op : BinaryOp) (a b : Scalar) :
    compare op.mirrored b a = compare op a b := by
  cases op with
  | equals => exact equals_comm b a
  | notEquals => exact congrArg not (equals_comm b a)
  | _ => rfl

end Scalar

/-- A comparison holds for two values if it holds for two of those that stand for them. -/
theorem Value.compare_eq_true {doc : Document} {op : BinaryOp} {left right : Value} :
    Value.compare doc op left right = true ↔ ∃ a ∈ left.comparands doc right,
      ∃ b ∈ right.comparands doc left, Scalar.compare op a b = true := by
  simp only [Value.compare, List.any_eq_true]

theorem Value.compare_mirrored (doc : Document) (op : BinaryOp) (left right : Value) :
    Value.compare doc op.mirrored right left = Value.compare doc op left right := by
  rw [Bool.eq_iff_iff, compare_eq_true, compare_eq_true]
  simp only [Scalar.compare_mirrored]
  exact ⟨fun ⟨b, hb, a, ha, h⟩ => ⟨a, ha, b, hb, h⟩, fun ⟨a, ha, b, hb, h⟩ => ⟨b, hb, a, ha, h⟩⟩

variable {s : Setting} {focus : Focus} {op : BinaryOp} {l r : Expr}

/-- A comparison has an answer for any two values. -/
theorem BinaryOp.IsComparison.apply_eq (h : op.IsComparison) (source : Ranked)
    (left right : Value) :
    op.apply source left right = .ok (.boolean (Value.compare source.document op left right)) := by
  cases op <;> first | rfl | cases h

theorem evaluate_binary_eq_ok {value : Value} :
    evaluate s focus (.binary op l r) = .ok value ↔ ∃ left right,
      evaluate s focus l = .ok left ∧ evaluate s focus r = .ok right ∧
        op.apply s.source left right = .ok value := by
  rw [evaluate]
  cases evaluate s focus l <;> cases evaluate s focus r <;> simp [bind, Except.bind]

/-- Comparisons are symmetric under mirroring. For any two values, node-sets or not, a comparison and
its mirror image with the operands exchanged both have an answer, and it is the same. So a comparison
in a query may be written in either direction: what it evaluates to does not change. -/
theorem comparison_mirrored (h : op.IsComparison) :
    (∀ source left right, ∃ holds,
      op.apply source left right = .ok (.boolean holds) ∧
        op.mirrored.apply source right left = .ok (.boolean holds)) ∧
    ∀ s focus l r value, evaluate s focus (.binary op l r) = .ok value ↔
      evaluate s focus (.binary op.mirrored r l) = .ok value := by
  have happly : ∀ source left right,
      op.mirrored.apply source right left = op.apply source left right := by
    intro source left right
    rw [h.apply_eq, h.mirrored.apply_eq, Value.compare_mirrored]
  refine ⟨fun source left right => ⟨_, h.apply_eq source left right, ?_⟩, fun s focus l r value => ?_⟩
  · rw [happly, h.apply_eq]
  · rw [evaluate_binary_eq_ok, evaluate_binary_eq_ok]
    simp only [happly]
    exact ⟨fun ⟨a, b, ha, hb, hv⟩ => ⟨b, a, hb, ha, hv⟩, fun ⟨b, a, hb, ha, hv⟩ => ⟨a, b, ha, hb, hv⟩⟩

def numbered : Document :=
  .ofSubtrees [.mk (.element { name := "r" }) [
    .mk (.element { name := "a" }) [.mk (.text "1") []],
    .mk (.element { name := "a" }) [.mk (.text " 5 ") []]]]

/-- Three is less than one of the numbers, and one of them is greater than three. -/
theorem comparison_mirrored_numbered :
    BinaryOp.less.IsComparison ∧ BinaryOp.less.mirrored = .greater ∧
    BinaryOp.less.apply (.of numbered) (.number 3.0) (.nodes [.node 2, .node 4]) =
      .ok (.boolean true) ∧
    BinaryOp.greater.apply (.of numbered) (.nodes [.node 2, .node 4]) (.number 3.0) =
      .ok (.boolean true) := by
  have hvalue : Value.compare numbered .less (.number 3.0) (.nodes [.node 2, .node 4]) = true := by
    decide +kernel
  have hcomparison : BinaryOp.less.IsComparison := trivial
  obtain ⟨holds, hless, hgreater⟩ := (comparison_mirrored hcomparison).1 (.of numbered) (.number 3.0)
    (.nodes [.node 2, .node 4])
  have hholds : BinaryOp.less.apply (.of numbered) (.number 3.0) (.nodes [.node 2, .node 4]) =
      .ok (.boolean true) := by
    rw [hcomparison.apply_eq, Ranked.of, hvalue]
  rw [hholds] at hless
  obtain rfl := Scalar.boolean.inj (Value.scalar.inj (Except.ok.inj hless))
  exact ⟨hcomparison, rfl, hholds, hgreater⟩

end MarkupQuery.Query
