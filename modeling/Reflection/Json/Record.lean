import Reflection.Json.Reader

namespace Reflection.Json

-- The fields of an object as far as their names are read.
abbrev Fields := List (String × Json)

-- A fault in the field at a place; behind the last field, one that shows at the end.
structure Placed where
  place : Nat
  fault : Fault
  deriving Repr, DecidableEq

def Placed.earlier (first second : Placed) : Placed :=
  if second.place < first.place then second else first

-- What is read from some fields of an object. They may come in any order, and the fault of the one
-- that comes first counts.
structure Record (α : Type) where
  names : List String
  read : Fields → Except Placed α

namespace Record

variable {α β : Type}

def map (f : α → β) (record : Record α) : Record β :=
  ⟨record.names, fun fields => (record.read fields).map f⟩

def seq (first : Record (α → β)) (second : Record α) : Record β where
  names := first.names ++ second.names
  read fields :=
    match first.read fields, second.read fields with
    | .ok f, .ok value => .ok (f value)
    | .ok _, .error failure => .error failure
    | .error failure, .ok _ => .error failure
    | .error failure, .error other => .error (failure.earlier other)

instance : Functor Record where
  map := map

instance : Seq Record where
  seq first second := seq first (second ())

-- The field of a name, if there is one.
def field (name : String) (absent : Reading α) (read : Json → Reading α) : Record α where
  names := [name]
  read fields :=
    match fields.zipIdx.find? (·.1.1 == name) with
    | none => absent.mapError (⟨fields.length, ·⟩)
    | some ((_, value), place) => (read value).mapError (⟨place, ·⟩)

def required (name : String) (read : Json → Reading α) : Record α :=
  field name (.error .mismatch) read

def optional (name : String) (absent : α) (read : Json → Reading α) : Record α :=
  field name (.ok absent) read

-- Reads the name of a field, and its value if the name is not known.
def acceptName (names : List String) (others : Json → Reading Unit) (seen : List String)
    (field : Name × Json) : Reading String := do
  let name ← field.1.text
  if names.contains name then
    if seen.contains name then .error .mismatch else .ok name
  else
    others field.2
    return name

-- The fields in front of the one where reading stops, and what stops it.
def survey (names : List String) (others : Json → Reading Unit) (seen : List String) :
    List (Name × Json) → Fields × Option Fault
  | [] => ([], none)
  | field :: fields =>
    match acceptName names others seen field with
    | .error fault => ([], some fault)
    | .ok name =>
      let (known, stop) := survey names others (name :: seen) fields
      ((name, field.2) :: known, stop)

-- Reads a record out of the fields of an object; `others` reads a field that is not known.
def ofFields (record : Record α) (others : Json → Reading Unit) (fields : List (Name × Json)) :
    Reading α :=
  let (known, stop) := survey record.names others [] fields
  match record.read known, stop with
  | .ok value, none => .ok value
  | .ok _, some fault => .error fault
  | .error failure, none => .error failure.fault
  | .error failure, some fault =>
    .error (if failure.place < known.length then failure.fault else fault)

def ofJson (record : Record α) (budget : Nat) (json : Json) : Reading α := do
  record.ofFields skip (← json.asObject budget)

end Record

end Reflection.Json
