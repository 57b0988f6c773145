import Reflection.Descriptor
import Reflection.Metadata.Literal

namespace Reflection

open Metadata (Piece)

structure CppOptions where
  -- the header that provides what the generated code builds on
  ruleHeader : String
  -- the namespace that is used
  usedNamespace : String
  -- the name of the function that lists the enumerators of an enum
  enumAccessor : String
  deriving Repr, DecidableEq

def CppOptions.default : CppOptions := ⟨"refl.rule.hxx", "refl", "all_enumerators"⟩

-- The start of the line that records the digest of the source.
def hashMarker : String := "// reflgen source-hash: "

namespace Cpp

-- A line, indented by tabs.
def line (depth : Nat) (text : String) : String :=
  String.ofList (List.replicate depth '\t') ++ text ++ "\n"

def quote (text : String) : String := Metadata.Literal.quote text

def pieceLines : List Piece → List String
  | [] => []
  | [piece] => [line 2 ("\x7b" ++ quote piece.key ++ ", " ++ quote piece.value ++ "\x7d")]
  | piece :: pieces =>
    line 2 ("\x7b" ++ quote piece.key ++ ", " ++ quote piece.value ++ "\x7d,") :: pieceLines pieces

-- The array of the metadata; it is there even if it is empty.
def metadataArray (variableName : String) (pieces : List Piece) : List String :=
  let declaration := "inline static constexpr std::array<Meta::MetaPiece, " ++
    toString pieces.length ++ "> " ++ variableName ++ " ="
  if pieces.isEmpty then [line 1 (declaration ++ " \x7b\x7d;")]
  else [line 1 declaration, line 1 "\x7b\x7b"] ++ pieceLines pieces ++ [line 1 "\x7d\x7d;"]

-- A function that lists the members of one kind.
structure Accessor where
  function : String
  builder : String
  members : List MemberDescriptor

def accessors (options : CppOptions) : TypeBody → List Accessor
  | .classBody fields staticFields methods =>
    [⟨"all_fields", "SFIELD_INFO", fields⟩,
     ⟨"all_static_fields", "SSTATICFIELD_INFO", staticFields⟩,
     ⟨"all_methods", "SMETHOD_INFO", methods⟩]
  | .enumBody enumerators => [⟨options.enumAccessor, "SENUM_FIELD_INFO", enumerators⟩]

def memberArrays (accessor : Accessor) : List String :=
  accessor.members.flatMap fun member =>
    line 0 "" :: metadataArray (member.name ++ "_meta") member.pieces

-- A kind without members gets no function.
def accessorLines (typeName : String) (accessor : Accessor) : List String :=
  if accessor.members.isEmpty then []
  else
    [line 0 "", line 1 ("inline static constexpr auto " ++ accessor.function ++ "()"),
      line 1 "\x7b"] ++
    accessor.members.map (fun member =>
      line 2 (accessor.builder ++ "(" ++ member.name ++ ", " ++ typeName ++ ", " ++
        member.name ++ "_meta);")) ++
    [line 2 ("return hana::make_tuple(" ++
        ", ".intercalate (accessor.members.map fun member => member.name ++ "_info()") ++ ");"),
      line 1 "\x7d"]

-- Every type becomes a specialization of `ClassInfo` or `EnumInfo` that holds its metadata as
-- constant arrays, and its members behind accessor functions.
def typeLines (options : CppOptions) (type : TypeDescriptor) : List String :=
  let name := type.qualifiedName
  let (info, getter) := if type.isEnum then ("EnumInfo", "GetEnumName")
    else ("ClassInfo", "GetClassName")
  let kinds := accessors options type.body
  [line 0 "template<>", line 0 ("struct " ++ info ++ "<" ++ name ++ ">"), line 0 "\x7b",
    line 1 ("inline static constexpr const char* " ++ getter ++ "()"), line 1 "\x7b",
    line 2 ("return " ++ quote name ++ ";"), line 1 "\x7d"] ++
  metadataArray "meta" type.pieces ++ kinds.flatMap memberArrays ++
  kinds.flatMap (accessorLines name) ++ [line 0 "\x7d;"]

def hashLines (hash : Option String) : List String :=
  hash.toList.map fun hash => line 0 (hashMarker ++ hash)

def artifactLines (options : CppOptions) (artifact : Artifact) : List String :=
  [line 0 ("// Generated by reflgen from " ++ artifact.source ++ ". Do not edit.")] ++
  hashLines artifact.sourceHash ++
  [line 0 "#pragma once", line 0 ("#include <" ++ options.ruleHeader ++ ">"), line 0 "",
    line 0 ("using namespace " ++ options.usedNamespace ++ ";")] ++
  artifact.types.flatMap fun type => line 0 "" :: typeLines options type

end Cpp

def Artifact.renderCpp (options : CppOptions) (artifact : Artifact) : String :=
  "".intercalate (Cpp.artifactLines options artifact)

end Reflection
