namespace MarkupQuery.Text

/-!
Sets of characters given by ranges. The tables made of them are those of Unicode 17.
-/

/-- Membership in a set of numbers given by the ascending list of the points where it flips. -/
def flips : List Nat → Nat → Bool
  | [], _ => false
  | b :: bs, n => if n < b then false else !flips bs n

end MarkupQuery.Text
