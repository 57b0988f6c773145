import Reflection.Json.Magnitude
import Reflection.Json.Parser

namespace Reflection.Json

-- A value is looked at in the order of the text, and the first fault counts. What stands in a value
-- of the wrong shape is not looked at.
abbrev Reading (α : Type) := Except Fault α

def textOf (body : List Char) : Reading String :=
  match textOf? body with
  | none => .error .invalid
  | some text => .ok (String.ofList text)

def Name.text : Name → Reading String
  | .spelled body => textOf body
  | .flawed flaw => .error flaw.read

-- Can a number or a string be read? A container has only been met so far.
def checkScalar : Json → Reading Unit
  | .number spelling => if isInRange spelling then .ok () else .error .invalid
  | .string body => (textOf body).map fun _ => ()
  | .flawed flaw => .error flaw.read
  | _ => .ok ()

-- A value where something else is wanted. A number or string has to be readable all the same.
def mismatched {α : Type} (json : Json) : Reading α := do
  json.checkScalar
  .error .mismatch

def asString : Json → Reading String
  | .string body => textOf body
  | json => json.mismatched

def asBool : Json → Reading Bool
  | .bool value => .ok value
  | json => json.mismatched

def asNatural : Json → Reading Nat
  | .number spelling =>
    if spelling.all Char.isDigit ∧ decimal spelling ≤ maxNatural then .ok (decimal spelling)
    else (Json.number spelling).mismatched
  | json => json.mismatched

-- Only an optional value may be null.
def asOption {α : Type} (read : Json → Reading α) : Json → Reading (Option α)
  | .null => .ok none
  | json => (read json).map some

-- `budget` is the number of containers that may still be entered.
def asArray (budget : Nat) : Json → Reading (List Json)
  | .array items => if budget = 0 then .error .invalid else .ok items
  | json => json.mismatched

def asList {α : Type} (budget : Nat) (read : Json → Reading α) (json : Json) :
    Reading (List α) := do
  (← asArray budget json).mapM read

def asObject (budget : Nat) : Json → Reading (List (Name × Json))
  | .object fields => if budget = 0 then .error .invalid else .ok fields
  | json => json.mismatched

def ofName {α : Type} (names : List (String × α)) (name : String) : Reading α :=
  match names.find? (·.1 == name) with
  | some entry => .ok entry.2
  | none => .error .mismatch

-- One of several names, alone or as the only field of an object with nothing behind it.
def asName {α : Type} (names : List (String × α)) : Json → Reading α
  | .object [(name, .null)] | .object [(name, .object [])] => do ofName names (← name.text)
  | json => do ofName names (← asString json)

-- The name that tells which kind of object this is. Where the object had to be read in full
-- before its kind was known, the place of the name among the possible ones will do as well.
def asTag {α : Type} (isBuffered : Bool) (names : List (String × α)) (json : Json) :
    Reading α :=
  match isBuffered, json with
  | true, .number _ => do
    match names[← asNatural json]? with
    | some entry => .ok entry.2
    | none => .error .mismatch
  | _, json => do ofName names (← asString json)

mutual

-- Can all of a value be read, whatever its shape?
def readable (budget : Nat) : Json → Reading Unit
  | .array items =>
    if budget = 0 then .error .invalid else readableItems (budget - 1) items
  | .object fields =>
    if budget = 0 then .error .invalid else readableFields (budget - 1) fields
  | json => json.checkScalar

def readableItems (budget : Nat) : List Json → Reading Unit
  | [] => .ok ()
  | item :: items => do
    readable budget item
    readableItems budget items

def readableFields (budget : Nat) : List (Name × Json) → Reading Unit
  | [] => .ok ()
  | (name, value) :: fields => do
    let _ ← name.text
    readable budget value
    readableFields budget fields

end

mutual

-- The place where a value goes wrong. There is at most one.
def flaw? : Json → Option Flaw
  | .flawed flaw => some flaw
  | .array items => flawOfItems? items
  | .object fields => flawOfFields? fields
  | _ => none

def flawOfItems? : List Json → Option Flaw
  | [] => none
  | item :: items => (flaw? item).or (flawOfItems? items)

def flawOfFields? : List (Name × Json) → Option Flaw
  | [] => none
  | (.flawed flaw, _) :: _ => some flaw
  | (_, value) :: fields => (flaw? value).or (flawOfFields? fields)

end

-- Passes a value over: however deep or large it is, only its form counts.
def skip (json : Json) : Reading Unit :=
  match json.flaw? with
  | none => .ok ()
  | some flaw => .error flaw.skipped

end Reflection.Json
