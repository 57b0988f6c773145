import Reflection.Json.Record
import Reflection.Program
import Reflection.Settings
import Reflection.Settings.Command

namespace Reflection

namespace Database

structure Entry where
  directory : String
  file : String
  command : Option String
  -- stands for the command if it is there
  arguments : Option (List String)

namespace Entry

open Json in
def record (budget : Nat) : Record Entry :=
  Entry.mk <$> .required "directory" asString <*> .required "file" asString
    <*> .optional "command" none (asOption asString)
    <*> .optional "arguments" none (asOption (asList budget asString))

def path (entry : Entry) : Path := (Path.mk entry.directory).join ⟨entry.file⟩

-- The command line, starting with the compiler.
def items (entry : Entry) : List String :=
  match entry.arguments, entry.command with
  | some arguments, _ => arguments
  | none, some command => (Command.split command.toList).map String.ofList
  | none, none => []

def names (entry : Entry) (wanted : Path) : Bool :=
  entry.path.same wanted || (Path.mk entry.file).same wanted

-- Does the entry match, if it does not name the file? Where both exist they have to be the same
-- file; else the end of the path will do.
def resembles (entry : Entry) (wanted : Path) : Option Bool → Bool
  | some same => same
  | none => !wanted.hasRoot && entry.path.endsWith wanted

def matches? (entry : Entry) (wanted : Path) : Program Bool :=
  if entry.names wanted then .done true
  else .sameFile entry.path wanted fun same => .done (entry.resembles wanted same)

def settings (entry : Entry) : Settings :=
  Settings.empty.applyAll ⟨entry.directory⟩ (entry.items.drop 1)

end Entry

open Json in
def parse (text : List Char) : Reading (List Entry) :=
  read (asList maxDepth ((Entry.record (maxDepth - 2)).ofJson (maxDepth - 1))) text

def find? (wanted : Path) : List Entry → Program (Option Entry)
  | [] => .done none
  | entry :: entries => do
    if ← entry.matches? wanted then return some entry
    else find? wanted entries

def fileName : String := "compile_commands.json"

end Database

inductive SettingsError where
  | unreadable (path : Path) (error : FileError)
  | malformed (path : Path) (fault : Json.Fault)
  | noEntry (file : Path)
  deriving Repr, DecidableEq

namespace SettingsError

def message : SettingsError → String
  | unreadable path _ => "cannot read compilation database " ++ path.text
  | malformed path _ => "invalid compilation database " ++ path.text
  | noEntry file => "no entry for " ++ file.text ++ " in compilation database"

def cause? : SettingsError → Option Cause
  | unreadable _ error => some (.file error)
  | malformed _ fault => some (.json fault)
  | noEntry _ => none

end SettingsError

-- The settings of `wanted` by the database in a directory.
def Settings.ofDatabase (directory wanted : Path) : Program (Except SettingsError Settings) := do
  let path := directory.join ⟨Database.fileName⟩
  match ← Program.textOf path with
  | .error error => return .error (.unreadable path error)
  | .ok text =>
    match Database.parse text with
    | .error fault => return .error (.malformed path fault)
    | .ok entries =>
      match ← Database.find? wanted entries with
      | none => return .error (.noEntry wanted)
      | some entry => return .ok entry.settings

end Reflection
