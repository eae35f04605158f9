import MarkupQuery.Json

namespace MarkupQuery

/-- Which namespaces declared on the root element get prefixes for queries. -/
inductive Discovery where
  /-- None. -/
  | off
  /-- All that are declared with a prefix; the default namespace gets the name of the root element
  as its prefix unless that is taken. -/
  | auxiliary
  /-- All that are declared with a prefix; the default namespace gets the given one. -/
  | defaultAs (qualifier : String)
deriving DecidableEq, Repr

structure Options where
  discovery : Discovery := .auxiliary
  /-- Whether malformed markup is an error rather than an empty document. -/
  strict : Bool := true
  /-- Whether void elements of HTML are written without an end tag. -/
  voidElements : Bool := true
deriving DecidableEq, Repr

namespace Discovery

/-- A mode without a value is a name, or a member of that name with the value null. -/
def ofJson? : Json → Option Discovery
  | .text "off" | .object [("off", .null)] => some off
  | .text "auxiliary" | .object [("auxiliary", .null)] => some auxiliary
  | .object [("default_as", .text qualifier)] => some (defaultAs qualifier)
  | _ => none

def toJson : Discovery → Json
  | off => .text "off"
  | auxiliary => .text "auxiliary"
  | defaultAs qualifier => .object [("default_as", .text qualifier)]

end Discovery

namespace Options

def flag? : Json → Option Bool
  | .boolean value => some value
  | _ => none

def part? {α : Type} (default : α) (read? : Json → Option α) : Option Json → Option α
  | none => some default
  | some value => read? value

def ofParts? (discovery strict voidElements : Option Json) : Option Options := do
  let standard : Options := {}
  let discovery ← part? standard.discovery Discovery.ofJson? discovery
  let strict ← part? standard.strict flag? strict
  let voidElements ← part? standard.voidElements flag? voidElements
  pure { discovery, strict, voidElements }

/-- Reads options from an object by name, or from an array in order. Other members are ignored. -/
def ofJson? : Json → Option Options
  | .object members =>
    ofParts? (members.lookup "namespaces") (members.lookup "strict")
      (members.lookup "html_void_elements")
  | .array items => if items.length ≤ 3 then ofParts? items[0]? items[1]? items[2]? else none
  | _ => none

def toJson (options : Options) : Json :=
  .object [("namespaces", options.discovery.toJson), ("strict", .boolean options.strict),
    ("html_void_elements", .boolean options.voidElements)]

end Options

end MarkupQuery
