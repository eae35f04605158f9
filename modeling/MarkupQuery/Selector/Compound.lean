import MarkupQuery.Selector.Error
import MarkupQuery.Selector.Token

namespace MarkupQuery.Selector

inductive Combinator where
  | child
  | descendant
deriving DecidableEq, Repr

inductive Filter where
  | id (value : String)
  | className (value : String)
  | attribute (name : Name) (comparison : Comparison) (value : String)
deriving DecidableEq, Repr

structure Compound where
  element : Option Name
  filters : List Filter
deriving DecidableEq, Repr

abbrev Branch := List (Combinator × Compound)

/-- A branch under construction. `lastCombinator?` is where the pending combinator was written;
a branch starts with a descendant combinator that is written nowhere. -/
structure Draft where
  steps : Branch := []
  current : Option Compound := none
  pending : Combinator := .descendant
  lastCombinator? : Option Nat := none
deriving DecidableEq, Repr

def Draft.addFilter (draft : Draft) (filter : Filter) : Draft :=
  let compound := draft.current.getD ⟨none, []⟩
  { draft with current := some { compound with filters := compound.filters ++ [filter] } }

def Draft.addElement (draft : Draft) (selector : String) (offset : Nat) (name : Name) :
    Except Error Draft :=
  match draft.current with
  | some _ => .error (.malformed selector offset .elementInside)
  | none => .ok { draft with current := some ⟨some name, []⟩ }

def Draft.addCombinator (draft : Draft) (selector : String) (offset : Nat)
    (combinator : Combinator) : Except Error Draft :=
  match draft.current with
  | none => .error (.malformed selector offset .combinatorFirst)
  | some compound =>
    .ok ⟨draft.steps ++ [(draft.pending, compound)], none, combinator, some offset⟩

def Draft.finish (draft : Draft) (selector : String) (offset : Nat) : Except Error Branch :=
  match draft.current, draft.lastCombinator? with
  | some compound, _ => .ok (draft.steps ++ [(draft.pending, compound)])
  | none, some place => .error (.malformed selector place .combinatorLast)
  | none, none => .error (.emptyBranch selector offset)

def Draft.add (draft : Draft) (selector : String) (offset : Nat) : Token → Except Error Draft
  | .element name => draft.addElement selector offset name
  | .id value => .ok (draft.addFilter (.id value))
  | .className value => .ok (draft.addFilter (.className value))
  | .attribute name comparison value => .ok (draft.addFilter (.attribute name comparison value))
  | .child => draft.addCombinator selector offset .child
  | .descendant => draft.addCombinator selector offset .descendant
  | .comma => .ok draft

/-- The branches that the tokens complete, `draft` being the start of the first one. -/
def branchesFrom (selector : String) (draft : Draft) : List Placed → Except Error (List Branch)
  | [] => do
    let branch ← draft.finish selector selector.utf8ByteSize
    pure [branch]
  | ⟨.comma, offset⟩ :: rest => do
    let branch ← draft.finish selector offset
    let others ← branchesFrom selector {} rest
    pure (branch :: others)
  | ⟨token, offset⟩ :: rest => do
    let longer ← draft.add selector offset token
    branchesFrom selector longer rest

def branches (selector : String) (tokens : List Placed) : Except Error (List Branch) :=
  branchesFrom selector {} tokens

end MarkupQuery.Selector
