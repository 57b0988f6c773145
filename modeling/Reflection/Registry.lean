import Reflection.Descriptor.Json
import Std.Data.HashMap
import Std.Data.HashSet

namespace Reflection

-- The types in the order of their registration. No two of them share a name.
structure Registry where
  types : List TypeDescriptor
  -- where the type of a name stands among the types
  positions : Std.HashMap String Nat

inductive RegistryError where
  | duplicate (name : String)
  | load (fault : Json.Fault)
  deriving Repr, DecidableEq

def RegistryError.duplicateMessage (name : String) : String :=
  "type '" ++ name ++ "' is already registered"

namespace Registry

def empty : Registry := ⟨[], ∅⟩

def find? (registry : Registry) (name : String) : Option TypeDescriptor :=
  registry.positions[name]?.bind fun position => registry.types[position]?

def contains (registry : Registry) (name : String) : Bool := registry.positions.contains name

def names (registry : Registry) : List String := registry.types.map (·.qualifiedName)

def size (registry : Registry) : Nat := registry.types.length

def push (registry : Registry) (type : TypeDescriptor) : Registry where
  types := registry.types ++ [type]
  positions := registry.positions.insert type.qualifiedName registry.size

-- A call on a registry. What it has changed stays changed even if it fails.
abbrev Call (α : Type) := ExceptT RegistryError (StateM Registry) α

-- What a call gives, and the registry after it.
def perform {α : Type} (registry : Registry) (call : Call α) :
    Except RegistryError α × Registry :=
  call.run.run registry

def register (type : TypeDescriptor) : Call TypeDescriptor := do
  let registry ← get
  if registry.contains type.qualifiedName then throw (.duplicate type.qualifiedName)
  set (registry.push type)
  return type

-- Stops at the first type whose name is taken, in the registry or among the types before it.
def checkNew (incoming : Std.HashSet String) : List TypeDescriptor → Call Unit
  | [] => return ()
  | type :: types => do
    let registry ← get
    if registry.contains type.qualifiedName || incoming.contains type.qualifiedName then
      throw (.duplicate type.qualifiedName)
    checkNew (incoming.insert type.qualifiedName) types

def registerAll : List TypeDescriptor → Call Unit
  | [] => return ()
  | type :: types => do
    discard (register type)
    registerAll types

-- Registers the types of an artifact and gives their number. It takes all of them or none.
def load (text : List Char) : Call Nat := do
  match Artifact.parse text with
  | .error fault => throw (.load fault)
  | .ok artifact =>
    checkNew ∅ artifact.types
    registerAll artifact.types
    return artifact.types.length

end Registry

end Reflection
