import Reflection.Json.Quoted

namespace Reflection.Json

inductive Layout where
  | compact
  | indented
  deriving Repr, DecidableEq

namespace Layout

-- What stands in front of an item, and in front of the bracket behind the last one.
def lineBreak (layout : Layout) (depth : Nat) : List Char :=
  match layout with
  | compact => []
  | indented => '\n' :: List.replicate (2 * depth) ' '

def colon : Layout → List Char
  | compact => [':']
  | indented => [':', ' ']

end Layout

def quoted (body : List Char) : List Char := '"' :: body ++ ['"']

def Name.print : Name → List Char
  | .spelled body => quoted body
  | .flawed _ => []

mutual

-- Empty arrays and objects are never broken.
def print (layout : Layout) (depth : Nat) : Json → List Char
  | .null => "null".toList
  | .bool true => "true".toList
  | .bool false => "false".toList
  | .number spelling => spelling
  | .string body => quoted body
  | .array [] => ['[', ']']
  | .array items => '[' :: printItems layout (depth + 1) items ++ layout.lineBreak depth ++ [']']
  | .object [] => ['{', '}']
  | .object fields =>
    '{' :: printFields layout (depth + 1) fields ++ layout.lineBreak depth ++ ['}']
  | .flawed _ => []

def printItems (layout : Layout) (depth : Nat) : List Json → List Char
  | [] => []
  | [item] => layout.lineBreak depth ++ print layout depth item
  | item :: items =>
    layout.lineBreak depth ++ print layout depth item ++ ',' :: printItems layout depth items

def printFields (layout : Layout) (depth : Nat) : List (Name × Json) → List Char
  | [] => []
  | [(name, value)] =>
    layout.lineBreak depth ++ name.print ++ layout.colon ++ print layout depth value
  | (name, value) :: fields =>
    layout.lineBreak depth ++ name.print ++ layout.colon ++ print layout depth value ++
      ',' :: printFields layout depth fields

end

def toText (layout : Layout) (json : Json) : List Char := print layout 0 json

def ofNat (value : Nat) : Json := .number (Nat.toDigits 10 value)

def ofOption {α : Type} (f : α → Json) : Option α → Json
  | none => .null
  | some value => f value

-- An object from plain names.
def ofFields (fields : List (String × Json)) : Json :=
  .object (fields.map fun field => (.spelled (escape field.1.toList), field.2))

end Reflection.Json
