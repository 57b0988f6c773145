import Reflection.Text

namespace Reflection

namespace Arguments

-- Why a command line is not carried out.
inductive Refusal where
  | invalid
  | help
  | version
  deriving Repr, DecidableEq

-- What a value has to be.
inductive ValueKind where
  | text
  | path
  | oneOf (names : List String)

def ValueKind.accepts : ValueKind → String → Bool
  | text, _ => true
  | path, value => !value.isEmpty
  | oneOf names, value => names.contains value

inductive Arity where
  -- no value, and at most once
  | flag
  -- a value, and at most once
  | single (kind : ValueKind)
  | repeatable (kind : ValueKind)
  -- ends the reading
  | refuse (refusal : Refusal)

structure OptionRule (κ : Type) where
  key : κ
  short : Option Char
  long : Option String
  arity : Arity

inductive Operands where
  -- The first operand names a command. It ends the options, and what follows is the command's.
  | command
  -- file names
  | atMost (count : Nat)
  | anyNumber

-- Options are read from left to right. The first thing that is wrong, or that asks for help, ends
-- the reading.
structure Grammar (κ : Type) where
  options : List (OptionRule κ)
  operands : Operands

-- What a command line gives, in order.
structure Given (κ : Type) where
  options : List (κ × String)
  operands : List String

-- An item of a command line by its spelling.
inductive Item where
  | separator
  | long (name : List Char) (value : Option String)
  -- options of one letter, the last of which may have its value attached
  | short (letters : List Char)
  | plain (text : String)

def Item.ofText (text : String) : Item :=
  match text.toList with
  | ['-', '-'] => separator
  | '-' :: '-' :: rest =>
    match Text.splitOnce '=' rest with
    | some (name, value) => long name (some (String.ofList value))
    | none => long rest none
  | '-' :: c :: rest => short (c :: rest)
  | _ => plain text

namespace Given

variable {κ : Type} [DecidableEq κ]

def empty : Given κ := ⟨[], []⟩

def has (given : Given κ) (key : κ) : Bool := given.options.any (·.1 = key)

def values (given : Given κ) (key : κ) : List String :=
  (given.options.filter (·.1 = key)).map (·.2)

def value? (given : Given κ) (key : κ) : Option String := (given.values key).head?

def push (given : Given κ) (key : κ) (value : String) : Given κ :=
  { given with options := given.options ++ [(key, value)] }

def pushOnce (given : Given κ) (key : κ) (value : String) : Except Refusal (Given κ) :=
  if given.has key then .error .invalid else .ok (given.push key value)

-- An option with its value.
def add (given : Given κ) (option : OptionRule κ) (value : String) : Except Refusal (Given κ) :=
  match option.arity with
  | .flag | .refuse _ => .error .invalid
  | .single kind =>
    if kind.accepts value then given.pushOnce option.key value else .error .invalid
  | .repeatable kind =>
    if kind.accepts value then .ok (given.push option.key value) else .error .invalid

-- An option without a value, and the option again if it still needs one.
def addBare (given : Given κ) (option : OptionRule κ) :
    Except Refusal (Given κ × Option (OptionRule κ)) :=
  match option.arity with
  | .flag => (given.pushOnce option.key "").map (·, none)
  | .single _ | .repeatable _ => .ok (given, some option)
  | .refuse refusal => .error refusal

def addOperand (given : Given κ) (operands : Operands) (text : String) :
    Except Refusal (Given κ) :=
  let room := match operands with
    | .command => false
    | .atMost count => given.operands.length < count
    | .anyNumber => true
  if room && !text.isEmpty then .ok { given with operands := given.operands ++ [text] }
  else .error .invalid

end Given

namespace Grammar

variable {κ : Type} [DecidableEq κ]

def short? (grammar : Grammar κ) (letter : Char) : Option (OptionRule κ) :=
  grammar.options.find? (·.short = some letter)

def long? (grammar : Grammar κ) (name : List Char) : Option (OptionRule κ) :=
  grammar.options.find? fun option => option.long.map String.toList = some name

def readLong (grammar : Grammar κ) (given : Given κ) (name : List Char) (value : Option String) :
    Except Refusal (Given κ × Option (OptionRule κ)) :=
  match grammar.long? name, value with
  | none, _ => .error .invalid
  | some option, none => given.addBare option
  | some option, some value => (given.add option value).map (·, none)

-- A value that is attached to a letter may have an equals sign before it.
def attached : List Char → String
  | '=' :: value => String.ofList value
  | value => String.ofList value

def readShort (grammar : Grammar κ) (given : Given κ) :
    List Char → Except Refusal (Given κ × Option (OptionRule κ))
  | [] => .ok (given, none)
  | letter :: letters =>
    match grammar.short? letter with
    | none => .error .invalid
    | some option => do
      let (given, awaiting) ← given.addBare option
      match awaiting with
      | none => grammar.readShort given letters
      | some option =>
        if letters.isEmpty then return (given, some option)
        else return (← given.add option (attached letters), none)

-- Reads all items. `awaiting` is the option that the next item has to be the value of.
def read (grammar : Grammar κ) (awaiting : Option (OptionRule κ)) (given : Given κ) :
    List String → Except Refusal (Given κ)
  | [] => if awaiting.isSome then .error .invalid else .ok given
  | item :: items =>
    match Item.ofText item, awaiting with
    | .plain text, some option => do grammar.read none (← given.add option text) items
    | _, some _ => .error .invalid
    | .plain text, none =>
      match grammar.operands with
      | .command => .ok { given with operands := text :: items }
      | operands => do grammar.read none (← given.addOperand operands text) items
    | .separator, none => items.foldlM (·.addOperand grammar.operands) given
    | .long name value, none => do
      let (given, awaiting) ← grammar.readLong given name value
      grammar.read awaiting given items
    | .short letters, none => do
      let (given, awaiting) ← grammar.readShort given letters
      grammar.read awaiting given items

end Grammar

end Arguments

end Reflection
