import Reflection.Descriptor
import Reflection.Declaration.Json

namespace Reflection

open Json (Reading Record)
open Metadata (Piece)

namespace Metadata

def Piece.toJson (piece : Piece) : Json :=
  .ofFields [("key", .ofString piece.key), ("value", .ofString piece.value)]

def Piece.record : Record Piece :=
  Piece.mk <$> .required "key" Json.asString <*> .required "value" Json.asString

end Metadata

def piecesJson (pieces : List Piece) : Json := .array (pieces.map Piece.toJson)

def Json.Record.pieces (budget : Nat) : Record (List Piece) :=
  .optional "meta" [] (asList budget (Piece.record.ofJson (budget - 1)))

def MemberKind.names : List (String × MemberKind) :=
  [("field", .field), ("static_field", .staticField), ("method", .method),
   ("enumerator", .enumerator)]

namespace MemberDescriptor

def toJson (member : MemberDescriptor) : Json :=
  .ofFields [("name", .ofString member.name), ("kind", .nameIn MemberKind.names member.kind),
    ("meta", piecesJson member.pieces)]

def record (budget : Nat) : Record MemberDescriptor :=
  MemberDescriptor.mk <$> .required "name" Json.asString
    <*> .required "kind" (Json.asName MemberKind.names) <*> .pieces budget

end MemberDescriptor

namespace TypeBody

-- A list of members is written only if it has any.
def membersField (name : String) (members : List MemberDescriptor) : List (String × Json) :=
  if members.isEmpty then [] else [(name, .array (members.map MemberDescriptor.toJson))]

def toFields : TypeBody → List (String × Json)
  | classBody fields staticFields methods =>
    ("kind", .ofString "class") :: membersField "fields" fields ++
      membersField "static_fields" staticFields ++ membersField "methods" methods
  | enumBody enumerators =>
    ("kind", .ofString "enum") :: membersField "enumerators" enumerators

inductive Tag where
  | classTag
  | enumTag

def Tag.names : List (String × Tag) := [("class", .classTag), ("enum", .enumTag)]

def members (budget : Nat) (name : String) : Record (List MemberDescriptor) :=
  .optional name []
    (Json.asList budget ((MemberDescriptor.record (budget - 2)).ofJson (budget - 1)))

def record (budget : Nat) : Tag → Record TypeBody
  | .classTag =>
    classBody <$> members budget "fields" <*> members budget "static_fields"
      <*> members budget "methods"
  | .enumTag => enumBody <$> members budget "enumerators"

def ofFields (budget : Nat) (fields : List (Json.Name × Json)) : Reading TypeBody := do
  let tag : Record Tag := .required "kind" (Json.asTag true Tag.names)
  (record budget (← tag.ofFields Json.skip fields)).ofFields Json.skip fields

end TypeBody

namespace TypeDescriptor

def toJson (type : TypeDescriptor) : Json :=
  .ofFields (("qualified_name", .ofString type.qualifiedName) ::
    ("meta", piecesJson type.pieces) :: type.body.toFields)

def head (budget : Nat) : Record (TypeBody → TypeDescriptor) :=
  TypeDescriptor.mk <$> .required "qualified_name" Json.asString <*> .pieces budget

-- The body is made of the fields that are left, and which of them it has shows only after all
-- have been read.
def ofJson (budget : Nat) (json : Json) : Reading TypeDescriptor := do
  let fields ← json.asObject budget
  let withBody ← (head (budget - 1)).ofFields (Json.readable (budget - 1)) fields
  return withBody (← TypeBody.ofFields (budget - 1) fields)

def parse (text : List Char) : Reading TypeDescriptor := Json.read (ofJson Json.maxDepth) text

end TypeDescriptor

namespace Artifact

def hashField (artifact : Artifact) : List (String × Json) :=
  match artifact.sourceHash with
  | none => []
  | some hash => [("source_hash", .ofString hash)]

def toJson (artifact : Artifact) : Json :=
  .ofFields (("source", .ofString artifact.source) :: artifact.hashField ++
    [("types", .array (artifact.types.map TypeDescriptor.toJson))])

def record (budget : Nat) : Record Artifact :=
  Artifact.mk <$> .required "source" Json.asString
    <*> .optional "source_hash" none (Json.asOption Json.asString)
    <*> .optional "types" [] (Json.asList budget (TypeDescriptor.ofJson (budget - 1)))

def parse (text : List Char) : Reading Artifact :=
  Json.read ((record (Json.maxDepth - 1)).ofJson Json.maxDepth) text

-- One item to a line, with a line feed at the end.
def renderJson (artifact : Artifact) : List Char := artifact.toJson.toText .indented ++ ['\n']

end Artifact

end Reflection
