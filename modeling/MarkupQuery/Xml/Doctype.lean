import MarkupQuery.Xml.Name

namespace MarkupQuery.Xml

open MarkupQuery.Text

/-- Entities with their replacement texts; the first declaration of a name counts. -/
abbrev Entities := List (String × List Char)

def comment? (s : List Char) : Option (Event × List Char) := do
  let (inside, after) ← upTo? "-->" s
  if contains inside ['-', '-'] || inside.getLast? == some '-' then none
  else some (.comment (String.ofList inside), after)

def instruction? (s : List Char) : Option (Event × List Char) := do
  -- an XML declaration is no instruction
  if "xml ".toList.isPrefixOf s then none
  else
    let (target, rest) ← name? s
    let (data, after) ← upTo? "?>" (skipSpace rest)
    let data? := if data.isEmpty then none else some (String.ofList data)
    pure (.instruction target data?, after)

def identifier? (s : List Char) : Option (List Char) := do
  let rest ← spaces? s
  let (_, after) ← quoted? (fun _ => true) rest
  pure after

def externalId? (s : List Char) : Option (Bool × List Char) :=
  match afterStart? "SYSTEM".toList s with
  | some rest => (identifier? rest).map (true, ·)
  | none =>
    match afterStart? "PUBLIC".toList s with
    | some rest => do
      let rest ← identifier? rest
      let rest ← identifier? rest
      pure (true, rest)
    | none => some (false, s)

def unparsedNotation? (s : List Char) : Option (List Char) :=
  match afterStart? "NDATA".toList (skipSpace s) with
  | none => some (skipSpace s)
  | some rest => do
    let rest ← spaces? rest
    let (_, after) ← name? rest
    pure after

/-- The replacement text of an entity, if it is declared by a quoted value. Its characters are not
looked at before it is used. -/
def entityValue? (isGeneral : Bool) (s : List Char) : Option (Option (List Char) × List Char) :=
  match s with
  | [] => none
  | c :: _ =>
    if c == '"' || c == '\'' then
      (quoted? (fun _ => true) s).map fun (value, rest) => (some value, rest)
    else do
      let (found, rest) ← externalId? s
      if !found then none
      else if isGeneral then (unparsedNotation? rest).map (none, ·)
      else some (none, rest)

def entity? (s : List Char) : Option (Entities × List Char) := do
  let rest ← spaces? s
  let (isGeneral, rest) ← match rest with
    | '%' :: more => (spaces? more).map (false, ·)
    | _ => some (true, rest)
  let (name, rest) ← name? rest
  let rest ← spaces? rest
  let (value, rest) ← entityValue? isGeneral rest
  match skipSpace rest with
  | '>' :: after => some (value.toList.map (name, ·), after)
  | _ => none

def skipDeclaration? (s : List Char) : Option (List Char) :=
  match s.dropWhile (· != '>') with
  | [] => none
  | _ :: after => some after

/-- The internal subset after its opening bracket: its entities, comments and instructions. -/
def subsetUpTo : Nat → List Char → Option (Entities × List Event × List Char)
  | 0, _ => none
  | fuel + 1, s =>
    let s := skipSpace s
    -- a subset that is not closed ends with the text
    if s.isEmpty then some ([], [], [])
    else if let some rest := afterStart? "<!ENTITY".toList s then do
      let (entities, rest) ← entity? rest
      let (more, events, after) ← subsetUpTo fuel rest
      pure (entities ++ more, events, after)
    else if let some rest := afterStart? "<!--".toList s then do
      let (event, rest) ← comment? rest
      let (entities, events, after) ← subsetUpTo fuel rest
      pure (entities, event :: events, after)
    else if let some rest := afterStart? "<?".toList s then do
      let (event, rest) ← instruction? rest
      let (entities, events, after) ← subsetUpTo fuel rest
      pure (entities, event :: events, after)
    else if let some rest := afterStart? "]".toList s then
      match skipSpace rest with
      | '>' :: after => some ([], [], after)
      | _ => none
    else if ["<!ELEMENT", "<!ATTLIST", "<!NOTATION"].any fun start => start.toList.isPrefixOf s then
      do
        let rest ← skipDeclaration? s
        subsetUpTo fuel rest
    else none

def doctype? (s : List Char) : Option (Entities × List Event × List Char) := do
  let rest ← spaces? s
  let (_, rest) ← name? rest
  let (_, rest) ← externalId? (skipSpace rest)
  match skipSpace rest with
  | '>' :: after => some ([], [], after)
  | '[' :: inside => subsetUpTo (inside.length + 1) inside
  | _ => none

def spacesOrEnd? (s : List Char) : Option (List Char) :=
  if "?>".toList.isPrefixOf s then some s else spaces? s

def declarationPart? (start : String) (s : List Char) : Option (List Char) :=
  if start.toList.isPrefixOf s then do
    let (_, _, rest) ← attribute? s
    spacesOrEnd? rest
  else some s

/-- An XML declaration after `<?xml`. It has to name a version. -/
def declaration? (s : List Char) : Option (List Char) := do
  let rest ← spacesOrEnd? s
  if !"version".toList.isPrefixOf rest then none
  else
    let rest ← declarationPart? "version" rest
    let rest ← declarationPart? "encoding" rest
    let rest ← declarationPart? "standalone" rest
    afterStart? "?>".toList (skipSpace rest)

end MarkupQuery.Xml
