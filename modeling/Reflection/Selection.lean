import Reflection.Declaration
import Reflection.Descriptor

namespace Reflection

open Metadata (Piece Malformed)

-- What a malformed annotation contributes.
inductive MalformedPolicy where
  | nothing
  -- one piece that holds the trimmed text
  | rawPiece
  deriving Repr, DecidableEq

def rawKey : String := "__raw"

def defaultTypeMarker : String := "refl"

structure SelectionOptions where
  -- A type is selected only if its metadata has this key; without one, every type with a marker
  -- annotation is.
  typeMarker : Option String
  -- only members with a marker annotation
  annotatedOnly : Bool
  publicOnly : Bool
  malformed : MalformedPolicy
  deriving Repr, DecidableEq

def SelectionOptions.default : SelectionOptions :=
  ⟨some defaultTypeMarker, false, false, .nothing⟩

-- Something noted about the tree.
inductive Finding where
  | duplicateName (name : String) (first second : Span)
  | malformedMetadata (target : String) (error : Malformed) (span : Span)
  | overloadSkipped (owner name : String) (span : Span)
  deriving Repr, DecidableEq

namespace Finding

def span : Finding → Span
  | duplicateName _ _ second => second
  | malformedMetadata _ _ span => span
  | overloadSkipped _ _ span => span

-- Does the finding make the selection fail?
def isHard : Finding → Bool
  | duplicateName _ _ _ => true
  | malformedMetadata _ _ _ => false
  | overloadSkipped _ _ _ => false

def code : Finding → String
  | duplicateName _ _ _ => "E-WALK-001"
  | malformedMetadata _ _ _ => "E-WALK-002"
  | overloadSkipped _ _ _ => "E-WALK-003"

def message : Finding → String
  | duplicateName name _ _ => "duplicate qualified name: " ++ name
  | malformedMetadata target error _ => "malformed metadata on " ++ target ++ ": " ++ error.message
  | overloadSkipped owner name _ =>
    "overload of " ++ owner ++ "::" ++ name ++ " skipped; only the first declaration is reflected"

-- How the finding is logged when it is made.
def remark : Finding → String
  | overloadSkipped owner name _ => "skipping overload of " ++ owner ++ "::" ++ name
  | finding => finding.message

end Finding

def qualify (scope name : String) : String :=
  if scope.isEmpty then name else scope ++ "::" ++ name

inductive TypeDecl where
  | classType (head : ClassHead) (members : List Member)
  | enumType (decl : EnumDecl)

def TypeDecl.annotations : TypeDecl → List AnnotationBlock
  | classType head _ => head.annotations
  | enumType decl => decl.annotations

def TypeDecl.span : TypeDecl → Span
  | classType head _ => head.span
  | enumType decl => decl.span

structure Candidate where
  qualifiedName : String
  decl : TypeDecl

mutual

-- Anonymous namespaces add nothing to a name. Templates, forward declarations and unnamed types
-- are no candidates, and what is nested in them is not looked at.
def Entity.candidates (scope : String) : Entity → List Candidate
  | .namespaceDecl head entities =>
    match head.name with
    | some name => candidatesOf (qualify scope name) entities
    | none => candidatesOf scope entities
  | .classDecl head members =>
    match head.name with
    | some name =>
      if head.isDefinition && !head.isTemplate then
        ⟨qualify scope name, .classType head members⟩ ::
          nestedCandidates (qualify scope name) members
      else []
    | none => []
  | .enumDecl decl =>
    match decl.name with
    | some name => if decl.isDefinition then [⟨qualify scope name, .enumType decl⟩] else []
    | none => []

def candidatesOf (scope : String) : List Entity → List Candidate
  | [] => []
  | entity :: entities => entity.candidates scope ++ candidatesOf scope entities

def nestedCandidates (scope : String) : List Member → List Candidate
  | [] => []
  | .type entity :: members => entity.candidates scope ++ nestedCandidates scope members
  | .field _ :: members => nestedCandidates scope members
  | .method _ :: members => nestedCandidates scope members

end

def hasMarker (annotations : List AnnotationBlock) : Bool :=
  annotations.any AnnotationBlock.isMarker

namespace SelectionOptions

def includes (options : SelectionOptions) (annotations : List AnnotationBlock) (access : Access) :
    Bool :=
  (!options.publicOnly || access = .publicAccess) &&
    (!options.annotatedOnly || hasMarker annotations)

-- The pieces of all annotations in order, and what is malformed among them.
def collect (options : SelectionOptions) (target : String) :
    List AnnotationBlock → List Piece × List Finding
  | [] => ([], [])
  | block :: annotations =>
    let others := options.collect target annotations
    match block.pieces with
    | .ok pieces => (pieces ++ others.1, others.2)
    | .error error =>
      let raw := match options.malformed with
        | .nothing => []
        | .rawPiece => [⟨rawKey, String.ofList (Text.trim block.text.toList)⟩]
      (raw ++ others.1, .malformedMetadata target error block.span :: others.2)

def describeMember (options : SelectionOptions) (owner name : String) (kind : MemberKind)
    (annotations : List AnnotationBlock) : MemberDescriptor × List Finding :=
  let collected := options.collect (owner ++ "::" ++ name) annotations
  (⟨name, kind, collected.1⟩, collected.2)

-- The members of a class that pass the filter, in order. Only functions that are neither
-- operators nor constructors or destructors count as methods, and of several that pass under one
-- name only the first is kept; `taken` holds the names that have been used.
def describeMembers (options : SelectionOptions) (owner : String) (taken : List String) :
    List Member → List MemberDescriptor × List Finding
  | [] => ([], [])
  | .type _ :: members => options.describeMembers owner taken members
  | .field decl :: members =>
    let others := options.describeMembers owner taken members
    if options.includes decl.annotations decl.access then
      let kind := if decl.isStatic then MemberKind.staticField else .field
      let described := options.describeMember owner decl.name kind decl.annotations
      (described.1 :: others.1, described.2 ++ others.2)
    else others
  | .method decl :: members =>
    if decl.kind = .regular && options.includes decl.annotations decl.access then
      if taken.contains decl.name then
        let others := options.describeMembers owner taken members
        (others.1, .overloadSkipped owner decl.name decl.span :: others.2)
      else
        let others := options.describeMembers owner (decl.name :: taken) members
        let described := options.describeMember owner decl.name .method decl.annotations
        (described.1 :: others.1, described.2 ++ others.2)
    else options.describeMembers owner taken members

def describeEnumerators (options : SelectionOptions) (owner : String)
    (decls : List EnumeratorDecl) : List MemberDescriptor × List Finding :=
  let described := (decls.filter fun decl => options.includes decl.annotations .publicAccess).map
    fun decl => options.describeMember owner decl.name .enumerator decl.annotations
  (described.map (·.1), described.flatMap (·.2))

def describeBody (options : SelectionOptions) (owner : String) :
    TypeDecl → TypeBody × List Finding
  | .classType _ members =>
    let described := options.describeMembers owner [] members
    let ofKind := fun kind => described.1.filter fun member => member.kind = kind
    (.classBody (ofKind .field) (ofKind .staticField) (ofKind .method), described.2)
  | .enumType decl =>
    let described := options.describeEnumerators owner decl.enumerators
    (.enumBody described.1, described.2)

def accepts (options : SelectionOptions) (pieces : List Piece) : Bool :=
  match options.typeMarker with
  | none => true
  | some marker => pieces.any (·.key == marker)

end SelectionOptions

-- What becomes of a candidate. Nothing is found about a type that is not selected, but malformed
-- annotations of it are still remarked on.
structure Description where
  type : Option TypeDescriptor
  span : Span
  findings : List Finding
  remarks : List Finding

def Candidate.describe (options : SelectionOptions) (candidate : Candidate) : Description :=
  let span := candidate.decl.span
  if hasMarker candidate.decl.annotations then
    let collected := options.collect candidate.qualifiedName candidate.decl.annotations
    if options.accepts collected.1 then
      let body := options.describeBody candidate.qualifiedName candidate.decl
      let findings := collected.2 ++ body.2
      ⟨some ⟨candidate.qualifiedName, collected.1, body.1⟩, span, findings, findings⟩
    else ⟨none, span, [], collected.2⟩
  else ⟨none, span, [], []⟩

-- One finding for every selected type whose name an earlier one has; `seen` holds the names so
-- far with the spans of the types they belong to.
def duplicates (seen : List (String × Span)) : List (String × Span) → List Finding
  | [] => []
  | (name, span) :: named =>
    match seen.find? (·.1 == name) with
    | some first => .duplicateName name first.2 span :: duplicates seen named
    | none => duplicates ((name, span) :: seen) named

structure Selected where
  types : List TypeDescriptor
  findings : List Finding
  deriving Repr, DecidableEq

-- The outcome of a selection, and what was remarked on the way.
structure Selection where
  outcome : Except (List Finding) Selected
  remarks : List Finding

def DeclarationTree.select (tree : DeclarationTree) (options : SelectionOptions) : Selection :=
  let described := (candidatesOf "" tree.entities).map (Candidate.describe options)
  let named := described.filterMap fun description =>
    description.type.map fun type => (type.qualifiedName, description.span)
  let hard := duplicates [] named
  ⟨if hard.isEmpty then
      .ok ⟨described.filterMap (·.type), described.flatMap (·.findings)⟩
    else .error hard,
    described.flatMap (·.remarks)⟩

-- The text of a failed selection.
def describeFailure : List Finding → String
  | [] => "walk failed"
  | [only] => only.message
  | first :: others => first.message ++ " (and " ++ toString others.length ++ " more)"

end Reflection
