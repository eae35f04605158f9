import MarkupQuery.Xml.Content

namespace MarkupQuery.Xml

open MarkupQuery.Text

def miscUpTo : Nat → List Char → Option (List Event × List Char)
  | 0, s => some ([], s)
  | fuel + 1, s =>
    let s := skipSpace s
    if let some rest := afterStart? "<!--".toList s then do
      let (event, rest) ← comment? rest
      let (more, rest) ← miscUpTo fuel rest
      pure (event :: more, rest)
    else if let some rest := afterStart? "<?".toList s then do
      let (event, rest) ← instruction? rest
      let (more, rest) ← miscUpTo fuel rest
      pure (event :: more, rest)
    else some ([], s)

def misc? (s : List Char) : Option (List Event × List Char) := miscUpTo (s.length + 1) s

def afterMark (s : List Char) : List Char :=
  match s with
  | c :: rest => if c.toNat = 0xFEFF then rest else s
  | [] => s

def prolog? (s : List Char) : Option (Entities × List Event × List Char) := do
  let rest ←
    if "<?xml ".toList.isPrefixOf s then declaration? (s.drop "<?xml".length) else some s
  let (before, rest) ← misc? rest
  match afterStart? "<!DOCTYPE".toList rest with
  | none => pure ([], before, rest)
  | some rest => do
    let (entities, inside, rest) ← doctype? rest
    let (between, rest) ← misc? rest
    pure (entities, before ++ inside ++ between, rest)

/-- A start tag, and the content that follows it unless the tag is empty. -/
def element? (entities : Entities) (s : List Char) : Option (List Event × List Char) :=
  match s with
  | '<' :: rest => do
    let scope : Scope := { entities }
    let (tag, rest, references) ← startTag? scope 0 rest
    if tag.ending = .content then do
      let (inside, rest, _) ←
        contentUpTo scope (contentEntity entities scope.depth) (rest.length + 1) 0 true references
          rest
      pure (.startTag tag :: inside, rest)
    else some ([.startTag tag], rest)
  | _ => none

/-- Reads a document; what it declares leaves no event. -/
def read? (s : List Char) : Option (List Event) := do
  let (entities, before, rest) ← prolog? (afterMark s)
  let (content, rest) ← element? entities (skipSpace rest)
  let (after, rest) ← misc? rest
  if rest.isEmpty then some (before ++ content ++ after) else none

end MarkupQuery.Xml
