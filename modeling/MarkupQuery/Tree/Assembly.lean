import MarkupQuery.Tree.Resolution

namespace MarkupQuery.Tree

open MarkupQuery.Xml

/-!
The trees that the events of markup make. An element may be opened by the text of one entity and
closed by that of another, so the elements that are open are all that events are matched with.
-/

/-- An element whose end tag is still to come, with the scope of its content and the trees below it
so far, the last one first. -/
structure OpenElement where
  name : QName
  element : Element
  scope : List Declaration
  below : List Subtree := []

/-- Trees under construction: those below the document node, the last one first, and the elements
that are open, the innermost first. The declarations and attributes are those of a start tag that
did not end; they count for the next tag. The pieces are those of the text that is being read, the
last one first. -/
structure Assembly where
  top : List Subtree := []
  opened : List OpenElement := []
  declarations : List Declaration := []
  attributes : List Written := []
  pieces : List String := []

namespace Assembly

def put (a : Assembly) (tree : Subtree) : Assembly :=
  match a.opened with
  | [] => { a with top := tree :: a.top }
  | e :: outer => { a with opened := { e with below := tree :: e.below } :: outer }

def endText (a : Assembly) : Assembly :=
  if a.pieces.isEmpty then a
  else { a with pieces := [] }.put (.mk (.text (String.join a.pieces.reverse)) [])

def scope (a : Assembly) : List Declaration := (a.opened.head?.map OpenElement.scope).getD []

def settled (a : Assembly) : Assembly := { a with declarations := [], attributes := [] }

def startTag? (a : Assembly) (tag : StartTag) : Option Assembly :=
  if tag.name.qualifier == "xmlns" then none
  else do
    let own ← ownDeclarations? a.declarations tag.attributes
    let others := tag.attributes.filter fun w => (declaredQualifier? w).isNone
    let attributes := a.attributes ++ others
    match tag.ending with
    -- what was read so far counts for the next tag
    | .missing => pure { a with declarations := own, attributes }
    | .empty =>
      let (element, _) ← resolvedElement? a.scope own tag.name attributes
      pure (a.settled.put (.mk (.element element) []))
    | .content =>
      let (element, scope) ← resolvedElement? a.scope own tag.name attributes
      pure { a.settled with opened := { name := tag.name, element, scope } :: a.opened }

/-- Closes the innermost element, which has to be of that name. Attributes that wait for a tag are
dropped, but have to be correct. -/
def endTag? (a : Assembly) (name : QName) : Option Assembly := do
  let _ ← resolvedAttributes? (innerScope a.declarations a.scope) [] a.attributes
  match a.opened with
  | [] => none
  | e :: outer =>
    if name.agrees e.name then
      pure ({ a.settled with opened := outer }.put (.mk (.element e.element) e.below.reverse))
    else none

def step? (a : Assembly) : Event → Option Assembly
  | .startTag tag => a.endText.startTag? tag
  | .endTag name => a.endText.endTag? name
  | .text content => some { a with pieces := content :: a.pieces }
  | .comment content => some (a.endText.put (.mk (.comment content) []))
  | .instruction target data => some (a.endText.put (.mk (.instruction target data) []))

/-- The text that the markup ends with; only its first piece counts. -/
def lastText (a : Assembly) : List Subtree :=
  (a.pieces.getLast?.map fun first => .mk (.text first) []).toList

def finish? (a : Assembly) : Option (List Subtree) :=
  let trees := a.top.reverse ++ a.lastText
  if a.opened.isEmpty && trees.any fun tree => tree.payload.isElement then some trees else none

end Assembly

/-- The trees below the document node that events make. It fails where the tags of markup do not
match or the rules for namespaces are broken. -/
def assembled? (events : List Event) : Option (List Subtree) := do
  let a ← events.foldlM Assembly.step? {}
  a.finish?

end MarkupQuery.Tree
