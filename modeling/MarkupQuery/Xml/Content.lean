import MarkupQuery.Xml.Doctype
import MarkupQuery.Xml.Text

namespace MarkupQuery.Xml

open MarkupQuery.Text

def maxDepth : Nat := 10

/-- What reading depends on: the declared entities, and how deep they may still nest. -/
structure Scope where
  entities : Entities
  depth : Nat := maxDepth

def Scope.nested (scope : Scope) : Bool := scope.depth != maxDepth

def Scope.attributeValue? (scope : Scope) (references : Nat) (value : List Char) :
    Option (String × Nat) := do
  let pieces ← pieces? value
  let (text, references) ←
    attributeText (attributeEntity scope.entities scope.depth) scope.nested references pieces
  pure (String.ofList text, references)

/-- The attributes up to the end of a start tag, or up to the end of the text if that comes right
after the name or a value. -/
def attributesUpTo (scope : Scope) :
    Nat → Nat → List Char → Option (List Written × TagEnd × List Char × Nat)
  | 0, _, _ => none
  -- the text of an entity may end before the tag does
  | _ + 1, references, [] => some ([], .missing, [], references)
  | fuel + 1, references, s =>
    match skipSpace s with
    | '/' :: '>' :: rest => some ([], .empty, rest, references)
    | '>' :: rest => some ([], .content, rest, references)
    | _ => do
      let rest ← spaces? s
      let (name, value, rest) ← attribute? rest
      let (value, references) ← scope.attributeValue? references value
      let (more, ending, rest, references) ← attributesUpTo scope fuel references rest
      pure (⟨name, value⟩ :: more, ending, rest, references)

def startTag? (scope : Scope) (references : Nat) (s : List Char) :
    Option (StartTag × List Char × Nat) := do
  let (name, rest) ← qualifiedName? s
  let (attributes, ending, rest, references) ←
    attributesUpTo scope (rest.length + 1) references rest
  pure (⟨name, attributes, ending⟩, rest, references)

def endTag? (s : List Char) : Option (QName × List Char) := do
  let (name, rest) ← qualifiedName? s
  match skipSpace rest with
  | '>' :: after => some (name, after)
  | _ => none

def cdata? (s : List Char) : Option (Event × List Char) := do
  let (inside, after) ← upTo? "]]>" s
  let lines := inside.map Piece.literal
  let text := (chunks false [] false lines).flatMap fun
    | .text content => content
    | .entity _ => []
  pure (.text (String.ofList text), after)

def marked? (s : List Char) : Option (Event × List Char) :=
  match s with
  | '?' :: rest => instruction? rest
  | _ =>
    match afterStart? "!--".toList s with
    | some rest => comment? rest
    | none => (afterStart? "![CDATA[".toList s).bind cdata?

def chunkEvents (expand : Nat → String → Option (List Event × Nat)) (nested : Bool)
    (references : Nat) : List Chunk → Option (List Event × Nat)
  | [] => some ([], references)
  | .text content :: rest => do
    let (events, references) ← chunkEvents expand nested references rest
    pure (.text (String.ofList content) :: events, references)
  | .entity name :: rest => do
    let counted ← countReference nested references
    let (content, references) ← expand counted name
    -- outside of entities every reference starts the count anew
    let (events, references) ← chunkEvents expand nested (if nested then references else 0) rest
    pure (content ++ events, references)

/-- Character data: no character that markup forbids, and not the end mark of a CDATA section. -/
def characterData? (expand : Nat → String → Option (List Event × Nat)) (nested : Bool)
    (references : Nat) (s : List Char) : Option (List Event × Nat) :=
  if !s.all isChar || contains s "]]>".toList then none
  else do
    let pieces ← pieces? s
    chunkEvents expand nested references (chunks nested [] false pieces)

/-- Content up to the end of its text, or up to the end tag that ends it. `level` counts the start
tags of the same text whose end tags are still to come; the end tag of one more ends the content.
An end tag needs a start tag before it in the same text, as `tagged` says. -/
def contentUpTo (scope : Scope) (expand : Nat → String → Option (List Event × Nat)) :
    Nat → Nat → Bool → Nat → List Char → Option (List Event × List Char × Nat)
  | 0, _, _, _, _ => none
  | _ + 1, _, _, references, [] => some ([], [], references)
  | fuel + 1, level, tagged, references, '<' :: s =>
    match s with
    | '/' :: s =>
      if !tagged then none
      else do
        let (name, rest) ← endTag? s
        match level with
        -- the element was opened outside of this text
        | 0 => some ([.endTag name], rest, references)
        | level + 1 => do
          let (more, rest, references) ← contentUpTo scope expand fuel level tagged references rest
          pure (.endTag name :: more, rest, references)
    | '!' :: _ | '?' :: _ => do
      let (event, rest) ← marked? s
      let (more, rest, references) ← contentUpTo scope expand fuel level tagged references rest
      pure (event :: more, rest, references)
    | _ => do
      let (tag, rest, references) ← startTag? scope references s
      let level := if tag.ending = .content then level + 1 else level
      let (more, rest, references) ← contentUpTo scope expand fuel level true references rest
      pure (.startTag tag :: more, rest, references)
  | fuel + 1, level, tagged, references, c :: s => do
    let data := (c :: s).takeWhile (· != '<')
    let (events, references) ← characterData? expand scope.nested references data
    let (more, rest, references) ←
      contentUpTo scope expand fuel level tagged references ((c :: s).dropWhile (· != '<'))
    pure (events ++ more, rest, references)

/-- The events of the text of an entity, where entities may nest `depth` deep. What follows the end
tag that ends the content does not count. -/
def contentEntity (entities : Entities) : Nat → Nat → String → Option (List Event × Nat)
  | 0, _, _ => none
  | depth + 1, references, name => do
    let value ← entities.lookup name
    let (events, _, references) ←
      contentUpTo ⟨entities, depth⟩ (contentEntity entities depth) (value.length + 1) 0 false
        references value
    pure (events, references)

end MarkupQuery.Xml
