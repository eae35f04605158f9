namespace MarkupQuery.Selector

/-- A name in a selector, written `qualifier|localName` or `localName`; `*` stands for any name. -/
structure Name where
  qualifier : Option String
  localName : String
deriving DecidableEq, Repr

inductive Comparison where
  | equals
  | includes
  | contains
deriving DecidableEq, Repr

inductive Token where
  | element (name : Name)
  | id (value : String)
  | className (value : String)
  | attribute (name : Name) (comparison : Comparison) (value : String)
  | child
  | descendant
  | comma
deriving DecidableEq, Repr

structure Placed where
  token : Token
  offset : Nat
deriving DecidableEq, Repr

end MarkupQuery.Selector
