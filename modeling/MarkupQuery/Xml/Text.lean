import MarkupQuery.Xml.Reference

namespace MarkupQuery.Xml

/-!
Line ends in character data and white space in attribute values. Characters that stand for
themselves are normalized; characters given by references stay as they are, except inside the
replacement text of an entity.
-/

inductive Chunk where
  | text (content : List Char)
  | entity (name : String)
deriving DecidableEq, Repr

/-- Appends a character to a text that is kept reversed. A carriage return becomes a line feed as
soon as the next character, or the end of the data, shows that it is a line end of its own; a line
feed right after it is dropped. -/
def pushLine (out : List Char) (c : Char) (atEnd : Bool) : List Char :=
  let last := if atEnd && c == '\r' then ['\n'] else [c]
  match out with
  | '\r' :: more => if c == '\n' then '\n' :: more else last ++ '\n' :: more
  | _ => last ++ out

def flush (out : List Char) (chunks : List Chunk) : List Chunk :=
  if out.isEmpty then chunks else .text out.reverse :: chunks

/-- Character data with its line ends normalized. `asIs` says that the character before was given
by a reference, which keeps the next one as it is, too. -/
def chunks (nested : Bool) (out : List Char) (asIs : Bool) : List Piece → List Chunk
  | [] => flush out []
  | .literal c :: rest =>
    if asIs then chunks nested (c :: out) false rest
    else chunks nested (pushLine out c rest.isEmpty) false rest
  | .referenced c :: rest =>
    if nested then chunks nested (pushLine out c rest.isEmpty) asIs rest
    else chunks nested (c :: out) true rest
  | .entity name :: rest => flush out (.entity name :: chunks nested [] false rest)

def spaceFor (c : Char) : Char :=
  if c == '\n' || c == '\t' || c == '\r' then ' ' else c

/-- Counts a reference to an entity. Only those inside other entities count, at most 255. -/
def countReference (nested : Bool) (references : Nat) : Option Nat :=
  if !nested then some 0
  else if references = 255 then none
  else some (references + 1)

def attributeText (expand : Nat → String → Option (List Char × Nat)) (nested : Bool)
    (references : Nat) : List Piece → Option (List Char × Nat)
  | [] => some ([], references)
  | .literal '\r' :: .literal '\n' :: rest => do
    let (text, references) ← attributeText expand nested references rest
    pure (' ' :: text, references)
  | .literal c :: rest => do
    let (text, references) ← attributeText expand nested references rest
    pure (spaceFor c :: text, references)
  | .referenced c :: rest =>
    if nested && c == '<' then none
    else do
      let (text, references) ← attributeText expand nested references rest
      pure ((if nested then spaceFor c else c) :: text, references)
  | .entity name :: rest => do
    let counted ← countReference nested references
    let (value, references) ← expand counted name
    let (text, references) ← attributeText expand nested (if nested then references else 0) rest
    pure (value ++ text, references)

def attributeEntity (entities : List (String × List Char)) :
    Nat → Nat → String → Option (List Char × Nat)
  | 0, _, _ => none
  | depth + 1, references, name => do
    let value ← entities.lookup name
    let pieces ← pieces? value
    attributeText (attributeEntity entities depth) true references pieces

end MarkupQuery.Xml
