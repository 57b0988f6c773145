import Reflection.Metadata.Attribute
import Reflection.Metadata.DocTags
import Reflection.Span

namespace Reflection

inductive AnnotationKind where
  -- what stands between `[[` and `]]`
  | attribute
  -- consecutive `///` lines, without the marks
  | docComment
  deriving Repr, DecidableEq

structure AnnotationBlock where
  kind : AnnotationKind
  text : String
  span : Span
  deriving Repr, DecidableEq

namespace AnnotationBlock

-- Does the annotation mark its declaration for reflection? Every attribute does, but of
-- documentation comments only those with a tag.
def isMarker (block : AnnotationBlock) : Bool :=
  match block.kind with
  | .attribute => true
  | .docComment => (Text.lines block.text.toList).any Metadata.isTagged

def pieces (block : AnnotationBlock) : Except Metadata.Malformed (List Metadata.Piece) :=
  match block.kind with
  | .attribute => Metadata.ofAttributeText block.text.toList
  | .docComment => .ok (Metadata.ofDocText block.text.toList)

end AnnotationBlock

inductive ClassKey where
  | classKey
  | structKey
  | unionKey
  deriving Repr, DecidableEq

inductive Access where
  | publicAccess
  | protectedAccess
  | privateAccess
  deriving Repr, DecidableEq

-- The access of members in front of which no label stands.
def ClassKey.defaultAccess : ClassKey → Access
  | classKey => .privateAccess
  | structKey | unionKey => .publicAccess

inductive MethodKind where
  | regular
  | constructor
  | destructor
  | operator
  deriving Repr, DecidableEq

structure FieldDecl where
  name : String
  isStatic : Bool
  access : Access
  annotations : List AnnotationBlock
  span : Span
  deriving Repr, DecidableEq

structure MethodDecl where
  name : String
  kind : MethodKind
  isStatic : Bool
  access : Access
  annotations : List AnnotationBlock
  span : Span
  deriving Repr, DecidableEq

structure EnumeratorDecl where
  name : String
  annotations : List AnnotationBlock
  span : Span
  deriving Repr, DecidableEq

structure EnumDecl where
  name : Option String
  isScoped : Bool
  isDefinition : Bool
  annotations : List AnnotationBlock
  enumerators : List EnumeratorDecl
  span : Span
  deriving Repr, DecidableEq

structure NamespaceHead where
  -- none for an anonymous namespace
  name : Option String
  isInline : Bool
  span : Span
  deriving Repr, DecidableEq

structure ClassHead where
  -- may be qualified; none for an anonymous class
  name : Option String
  key : ClassKey
  isDefinition : Bool
  isTemplate : Bool
  annotations : List AnnotationBlock
  span : Span
  deriving Repr, DecidableEq

-- Everything else in a source file is left out of the tree. What a namespace or class is, apart
-- from its contents, is kept in a head of its own.
mutual

inductive Entity where
  | namespaceDecl (head : NamespaceHead) (entities : List Entity)
  | classDecl (head : ClassHead) (members : List Member)
  | enumDecl (decl : EnumDecl)

inductive Member where
  | field (decl : FieldDecl)
  | method (decl : MethodDecl)
  -- a nested class or enum
  | type (entity : Entity)

end

def Entity.span : Entity → Span
  | namespaceDecl head _ => head.span
  | classDecl head _ => head.span
  | enumDecl decl => decl.span

structure DeclarationTree where
  entities : List Entity
  span : Span

end Reflection
