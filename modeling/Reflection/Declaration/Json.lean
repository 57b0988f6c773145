import Reflection.Declaration
import Reflection.Json.Printer
import Reflection.Json.Record

namespace Reflection

open Json (Reading Record)

def Span.toJson (span : Span) : Json :=
  .ofFields [("start", .ofNat span.start), ("end", .ofNat span.stop)]

def Span.record : Record Span :=
  Span.mk <$> .required "start" Json.asNatural <*> .required "end" Json.asNatural

def Json.Record.span (budget : Nat) : Record Span :=
  .optional "span" Span.none (Span.record.ofJson budget)

def AnnotationKind.names : List (String × AnnotationKind) :=
  [("attribute", .attribute), ("doc_comment", .docComment)]

def ClassKey.names : List (String × ClassKey) :=
  [("class", .classKey), ("struct", .structKey), ("union", .unionKey)]

def Access.names : List (String × Access) :=
  [("public", .publicAccess), ("protected", .protectedAccess), ("private", .privateAccess)]

def MethodKind.names : List (String × MethodKind) :=
  [("regular", .regular), ("constructor", .constructor), ("destructor", .destructor),
   ("operator", .operator)]

-- The name that a table gives a value.
def Json.nameIn {α : Type} [DecidableEq α] (names : List (String × α)) (value : α) : Json :=
  .ofString (((names.find? (·.2 = value)).map (·.1)).getD "")

def AnnotationBlock.toJson (block : AnnotationBlock) : Json :=
  .ofFields [("kind", .nameIn AnnotationKind.names block.kind),
    ("text", .ofString block.text), ("span", block.span.toJson)]

def AnnotationBlock.record (budget : Nat) : Record AnnotationBlock :=
  AnnotationBlock.mk <$> .required "kind" (Json.asName AnnotationKind.names)
    <*> .required "text" Json.asString <*> .span budget

def annotationsJson (annotations : List AnnotationBlock) : Json :=
  .array (annotations.map AnnotationBlock.toJson)

namespace Json.Record

def annotations (budget : Nat) : Record (List AnnotationBlock) :=
  .optional "annotations" []
    (asList budget ((AnnotationBlock.record (budget - 2)).ofJson (budget - 1)))

-- Every field is written. Where a tree is read, those with a value to fall back on may be missing.
def flag (name : String) (absent : Bool) : Record Bool := .optional name absent asBool

def optionalName : Record (Option String) := .optional "name" none (asOption asString)

def access : Record Access := .optional "access" .publicAccess (asName Access.names)

end Json.Record

def EnumeratorDecl.toJson (decl : EnumeratorDecl) : Json :=
  .ofFields [("name", .ofString decl.name), ("annotations", annotationsJson decl.annotations),
    ("span", decl.span.toJson)]

def EnumeratorDecl.record (budget : Nat) : Record EnumeratorDecl :=
  EnumeratorDecl.mk <$> .required "name" Json.asString <*> .annotations budget <*> .span budget

-- The fields of an object, without the tag that tells what it is.
def FieldDecl.toFields (decl : FieldDecl) : List (String × Json) :=
  [("name", .ofString decl.name), ("is_static", .bool decl.isStatic),
   ("access", .nameIn Access.names decl.access),
   ("annotations", annotationsJson decl.annotations), ("span", decl.span.toJson)]

def FieldDecl.record (budget : Nat) : Record FieldDecl :=
  FieldDecl.mk <$> .required "name" Json.asString <*> .flag "is_static" false <*> .access
    <*> .annotations budget <*> .span budget

def MethodDecl.toFields (decl : MethodDecl) : List (String × Json) :=
  [("name", .ofString decl.name), ("kind", .nameIn MethodKind.names decl.kind),
   ("is_static", .bool decl.isStatic), ("access", .nameIn Access.names decl.access),
   ("annotations", annotationsJson decl.annotations), ("span", decl.span.toJson)]

def MethodDecl.record (budget : Nat) : Record MethodDecl :=
  MethodDecl.mk <$> .required "name" Json.asString
    <*> .optional "kind" .regular (Json.asName MethodKind.names) <*> .flag "is_static" false
    <*> .access <*> .annotations budget <*> .span budget

def EnumDecl.toFields (decl : EnumDecl) : List (String × Json) :=
  [("name", .ofOption .ofString decl.name), ("is_scoped", .bool decl.isScoped),
   ("is_definition", .bool decl.isDefinition),
   ("annotations", annotationsJson decl.annotations),
   ("enumerators", .array (decl.enumerators.map EnumeratorDecl.toJson)),
   ("span", decl.span.toJson)]

def EnumDecl.record (budget : Nat) : Record EnumDecl :=
  EnumDecl.mk <$> .optionalName <*> .flag "is_scoped" false <*> .flag "is_definition" true
    <*> .annotations budget
    <*> .optional "enumerators" []
      (Json.asList budget ((EnumeratorDecl.record (budget - 2)).ofJson (budget - 1)))
    <*> .span budget

def NamespaceHead.record (budget : Nat) : Record NamespaceHead :=
  NamespaceHead.mk <$> .optionalName <*> .flag "is_inline" false <*> .span budget

def ClassHead.record (budget : Nat) : Record ClassHead :=
  ClassHead.mk <$> .optionalName <*> .required "key" (Json.asName ClassKey.names)
    <*> .flag "is_definition" true <*> .flag "is_template" false <*> .annotations budget
    <*> .span budget

mutual

def Entity.toFields : Entity → List (String × Json)
  | .namespaceDecl head entities =>
    [("entity", .ofString "namespace"), ("name", .ofOption .ofString head.name),
     ("is_inline", .bool head.isInline), ("entities", .array (entitiesJson entities)),
     ("span", head.span.toJson)]
  | .classDecl head members =>
    [("entity", .ofString "class"), ("name", .ofOption .ofString head.name),
     ("key", .nameIn ClassKey.names head.key), ("is_definition", .bool head.isDefinition),
     ("is_template", .bool head.isTemplate),
     ("annotations", annotationsJson head.annotations),
     ("members", .array (membersJson members)), ("span", head.span.toJson)]
  | .enumDecl decl => ("entity", .ofString "enum") :: decl.toFields

def Member.toFields : Member → List (String × Json)
  | .field decl => ("member", .ofString "field") :: decl.toFields
  | .method decl => ("member", .ofString "method") :: decl.toFields
  | .type entity => ("member", .ofString "type") :: entity.toFields

def entitiesJson : List Entity → List Json
  | [] => []
  | entity :: entities => .ofFields entity.toFields :: entitiesJson entities

def membersJson : List Member → List Json
  | [] => []
  | member :: members => .ofFields member.toFields :: membersJson members

end

inductive EntityTag where
  | namespaceTag
  | classTag
  | enumTag

inductive MemberTag where
  | fieldTag
  | methodTag
  | typeTag

def EntityTag.names : List (String × EntityTag) :=
  [("namespace", .namespaceTag), ("class", .classTag), ("enum", .enumTag)]

def MemberTag.names : List (String × MemberTag) :=
  [("field", .fieldTag), ("method", .methodTag), ("type", .typeTag)]

mutual

-- An entity from the fields of its object. Only the outermost entities of a tree come without
-- having been read before; all their fields are read before it is known what they are for.
def entityOfFields (isBuffered : Bool) (budget : Nat) (fields : List (Json.Name × Json)) :
    Reading Entity := do
  let tag : Record EntityTag := .required "entity" (Json.asTag isBuffered EntityTag.names)
  match ← tag.ofFields (if isBuffered then Json.skip else Json.readable budget) fields with
  | .namespaceTag =>
    (Entity.namespaceDecl <$> NamespaceHead.record budget
      <*> .optional "entities" [] (entitiesOfJson budget)).ofFields Json.skip fields
  | .classTag =>
    (Entity.classDecl <$> ClassHead.record budget
      <*> .optional "members" [] (membersOfJson budget)).ofFields Json.skip fields
  | .enumTag => (Entity.enumDecl <$> EnumDecl.record budget).ofFields Json.skip fields
termination_by 2 * budget + 1

def entitiesOfJson (budget : Nat) (json : Json) : Reading (List Entity) := do
  let items ← json.asArray budget
  match budget with
  | 0 => .error .invalid
  | budget + 1 => items.mapM (entityOfJson true budget)
termination_by 2 * budget

def entityOfJson (isBuffered : Bool) (budget : Nat) (json : Json) : Reading Entity := do
  let fields ← json.asObject budget
  match budget with
  | 0 => .error .invalid
  | budget + 1 => entityOfFields isBuffered budget fields
termination_by 2 * budget

def membersOfJson (budget : Nat) (json : Json) : Reading (List Member) := do
  let items ← json.asArray budget
  match budget with
  | 0 => .error .invalid
  | budget + 1 => items.mapM (memberOfJson budget)
termination_by 2 * budget

def memberOfJson (budget : Nat) (json : Json) : Reading Member := do
  let fields ← json.asObject budget
  match budget with
  | 0 => .error .invalid
  | budget + 1 =>
    let tag : Record MemberTag := .required "member" (Json.asTag true MemberTag.names)
    match ← tag.ofFields Json.skip fields with
    | .fieldTag => (Member.field <$> FieldDecl.record budget).ofFields Json.skip fields
    | .methodTag => (Member.method <$> MethodDecl.record budget).ofFields Json.skip fields
    | .typeTag => return .type (← entityOfFields true budget fields)
termination_by 2 * budget

end

namespace DeclarationTree

def empty : DeclarationTree := ⟨[], Span.none⟩

def toJson (tree : DeclarationTree) : Json :=
  .ofFields [("entities", .array (entitiesJson tree.entities)), ("span", tree.span.toJson)]

def record (budget : Nat) : Record DeclarationTree :=
  DeclarationTree.mk
    <$> .optional "entities" [] (Json.asList budget (entityOfJson false (budget - 1)))
    <*> .span budget

-- An empty array stands for a tree without entities.
def ofJson (json : Json) : Reading DeclarationTree :=
  match json with
  | .array [] => .ok empty
  | .array (.flawed flaw :: _) => .error flaw.read
  | json => (record (Json.maxDepth - 1)).ofJson Json.maxDepth json

def parse (text : List Char) : Reading DeclarationTree := Json.read ofJson text

end DeclarationTree

end Reflection
