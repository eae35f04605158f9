import MarkupQuery.Query.Expr
import MarkupQuery.Query.Site

namespace MarkupQuery.Query

open MarkupQuery.Tree

namespace Site

/-- The children of the parent, with the site itself. Attributes have no siblings. -/
def siblings (doc : Document) (site : Site) : List Site :=
  if site.index.isSome then [] else ((site.parent? doc).map (children doc)).getD []

def followingSiblings (doc : Document) (site : Site) : List Site :=
  ((site.siblings doc).dropWhile (· != site)).drop 1

def precedingSiblings (doc : Document) (site : Site) : List Site :=
  ((site.siblings doc).takeWhile (· != site)).reverse

def subtree (doc : Document) (site : Site) : List Site := site :: site.descendants doc

/-- Everything after a site but what is below it. What is below the owner of an attribute comes
after the attribute. -/
def following (doc : Document) (site : Site) : List Site :=
  let below := if site.index.isSome then (node site.id).descendants doc else []
  below ++ (doc.ancestors site.id).flatMap fun above =>
    ((node above).followingSiblings doc).flatMap (subtree doc)

/-- Everything before a site but what is above it, nearest first. -/
def preceding (doc : Document) (site : Site) : List Site :=
  (doc.ancestors site.id).flatMap fun above =>
    ((node above).precedingSiblings doc).flatMap fun sibling => (sibling.subtree doc).reverse

end Site

/-- The sites on an axis: in document order, on a reverse axis against it. -/
def Axis.sites (doc : Document) (axis : Axis) (site : Site) : List Site :=
  match axis with
  | .child => site.children doc
  | .descendant => site.descendants doc
  | .descendantOrSelf => site.subtree doc
  | .attribute => site.attributes doc
  | .parent => (site.parent? doc).toList
  | .ancestor => site.ancestors doc
  | .ancestorOrSelf => site :: site.ancestors doc
  | .self => [site]
  | .followingSibling => site.followingSiblings doc
  | .precedingSibling => site.precedingSiblings doc
  | .following => site.following doc
  | .preceding => site.preceding doc

end MarkupQuery.Query
