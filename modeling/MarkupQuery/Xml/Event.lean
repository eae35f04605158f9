namespace MarkupQuery.Xml

structure QName where
  written : Option String
  localName : String
deriving DecidableEq, Repr, Inhabited

/-- The prefix of a name; a name that starts with its colon has the empty one, too. -/
def QName.qualifier (name : QName) : String := name.written.getD ""

def QName.agrees (a b : QName) : Bool :=
  a.qualifier == b.qualifier && a.localName == b.localName

/-- An attribute as written, its value normalized. -/
structure Written where
  name : QName
  value : String
deriving DecidableEq, Repr

/-- How a start tag ends. It does not where the text of an entity ends before the tag does. -/
inductive TagEnd where
  | missing
  | empty
  | content
deriving DecidableEq, Repr

structure StartTag where
  name : QName
  attributes : List Written
  ending : TagEnd
deriving DecidableEq, Repr

/-- What markup consists of, in the order in which it is read. References to entities are replaced
by the events of their texts, so tags need not match each other. -/
inductive Event where
  | startTag (tag : StartTag)
  | endTag (name : QName)
  | text (content : String)
  | comment (content : String)
  | instruction (target : String) (data : Option String)
deriving DecidableEq, Repr, Inhabited

end MarkupQuery.Xml
