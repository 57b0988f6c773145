import Reflection.Metadata.Piece

namespace Reflection

open Metadata (Piece)

inductive MemberKind where
  | field
  | staticField
  | method
  | enumerator
  deriving Repr, DecidableEq

def MemberKind.label : MemberKind → String
  | field => "field"
  | staticField => "static field"
  | method => "method"
  | enumerator => "enumerator"

structure MemberDescriptor where
  name : String
  kind : MemberKind
  pieces : List Piece
  deriving Repr, DecidableEq

-- The members of a class or of an enum, never of both.
inductive TypeBody where
  | classBody (fields staticFields methods : List MemberDescriptor)
  | enumBody (enumerators : List MemberDescriptor)
  deriving Repr, DecidableEq

namespace TypeBody

def emptyClass : TypeBody := classBody [] [] []

def emptyEnum : TypeBody := enumBody []

-- The members of one kind; none if the body cannot hold such members.
def members? (body : TypeBody) (kind : MemberKind) : Option (List MemberDescriptor) :=
  match body, kind with
  | classBody fields _ _, .field => some fields
  | classBody _ staticFields _, .staticField => some staticFields
  | classBody _ _ methods, .method => some methods
  | enumBody enumerators, .enumerator => some enumerators
  | _, _ => none

-- Appends a member to the list for this kind, if the body has one.
def push (body : TypeBody) (kind : MemberKind) (member : MemberDescriptor) : TypeBody :=
  match body, kind with
  | classBody fields staticFields methods, .field =>
    classBody (fields ++ [member]) staticFields methods
  | classBody fields staticFields methods, .staticField =>
    classBody fields (staticFields ++ [member]) methods
  | classBody fields staticFields methods, .method =>
    classBody fields staticFields (methods ++ [member])
  | enumBody enumerators, .enumerator => enumBody (enumerators ++ [member])
  | body, _ => body

end TypeBody

structure TypeDescriptor where
  qualifiedName : String
  pieces : List Piece
  body : TypeBody
  deriving Repr, DecidableEq

namespace TypeDescriptor

def isEnum (type : TypeDescriptor) : Bool :=
  match type.body with
  | .enumBody _ => true
  | .classBody _ _ _ => false

def members (type : TypeDescriptor) (kind : MemberKind) : List MemberDescriptor :=
  (type.body.members? kind).getD []

def member? (type : TypeDescriptor) (kind : MemberKind) (name : String) :
    Option MemberDescriptor :=
  (type.members kind).find? (·.name == name)

def simpleName (type : TypeDescriptor) : String :=
  String.ofList (Text.lastPart [':', ':'] type.qualifiedName.toList)

end TypeDescriptor

-- What is generated from one source file.
structure Artifact where
  source : String
  -- the digest of the source, if freshness is to be judged by it
  sourceHash : Option String
  types : List TypeDescriptor
  deriving Repr, DecidableEq

namespace Artifact

def find? (artifact : Artifact) (qualifiedName : String) : Option TypeDescriptor :=
  artifact.types.find? (·.qualifiedName == qualifiedName)

def withSourceHash (artifact : Artifact) (hash : String) : Artifact :=
  { artifact with sourceHash := some hash }

end Artifact

end Reflection
