import Reflection.Header.Skipping

namespace Reflection

-- Two texts of the same tokens give the same declarations without their places.
def AnnotationBlock.unplaced (block : AnnotationBlock) : AnnotationBlock :=
  { block with span := .none }

def FieldDecl.unplaced (decl : FieldDecl) : FieldDecl :=
  { decl with annotations := decl.annotations.map AnnotationBlock.unplaced, span := .none }

def MethodDecl.unplaced (decl : MethodDecl) : MethodDecl :=
  { decl with annotations := decl.annotations.map AnnotationBlock.unplaced, span := .none }

def EnumeratorDecl.unplaced (decl : EnumeratorDecl) : EnumeratorDecl :=
  { decl with annotations := decl.annotations.map AnnotationBlock.unplaced, span := .none }

def EnumDecl.unplaced (decl : EnumDecl) : EnumDecl :=
  { decl with
    annotations := decl.annotations.map AnnotationBlock.unplaced
    enumerators := decl.enumerators.map EnumeratorDecl.unplaced
    span := .none }

def NamespaceHead.unplaced (head : NamespaceHead) : NamespaceHead := { head with span := .none }

def ClassHead.unplaced (head : ClassHead) : ClassHead :=
  { head with annotations := head.annotations.map AnnotationBlock.unplaced, span := .none }

mutual

def Entity.unplaced : Entity → Entity
  | .namespaceDecl head entities => .namespaceDecl head.unplaced (unplacedEntities entities)
  | .classDecl head members => .classDecl head.unplaced (unplacedMembers members)
  | .enumDecl decl => .enumDecl decl.unplaced

def unplacedEntities : List Entity → List Entity
  | [] => []
  | entity :: entities => entity.unplaced :: unplacedEntities entities

def Member.unplaced : Member → Member
  | .field decl => .field decl.unplaced
  | .method decl => .method decl.unplaced
  | .type entity => .type entity.unplaced

def unplacedMembers : List Member → List Member
  | [] => []
  | member :: members => member.unplaced :: unplacedMembers members

end

theorem unplacedEntities_eq_map (entities : List Entity) :
    unplacedEntities entities = entities.map Entity.unplaced := by
  induction entities with
  | nil => rfl
  | cons entity entities ih => rw [unplacedEntities, ih, List.map_cons]

theorem unplacedMembers_eq_map (members : List Member) :
    unplacedMembers members = members.map Member.unplaced := by
  induction members with
  | nil => rfl
  | cons member members ih => rw [unplacedMembers, ih, List.map_cons]

theorem unplacedMembers_append (first second : List Member) :
    unplacedMembers (first ++ second) = unplacedMembers first ++ unplacedMembers second := by
  simp only [unplacedMembers_eq_map, List.map_append]

def Header.ParseError.unplaced : Header.ParseError → Header.ParseError
  | .unexpectedToken expected found _ => .unexpectedToken expected found .none
  | .unexpectedEnd _ => .unexpectedEnd .none
  | .unterminated group _ => .unterminated group .none
  | .unmatchedBrace _ => .unmatchedBrace .none

end Reflection
