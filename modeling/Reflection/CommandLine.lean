import Reflection.Invocation
import Reflection.Registry
import Reflection.Settings.Database

namespace Reflection

-- Where the seconds that a run took are written.
inductive Elapsed where
  | nowhere
  | afterOutput
  | amongNotices
  deriving Repr, DecidableEq

structure Finish where
  status : Nat
  output : String
  elapsed : Elapsed

namespace Finish

def success (output : String) : Finish := ⟨0, output, .nowhere⟩

def failure (status : Nat) : Finish := ⟨status, "", .nowhere⟩

end Finish

namespace CommandLine

def missingInput : Nat := 1

def unreadableInput : Nat := 2

def failedGeneration : Nat := 3

abbrev Step (α : Type) := ExceptT Finish Program α

-- Ends the run with a notice.
def fail {α : Type} (status : Nat) (notices : List Notice) : Step α := do
  Program.notifyAll notices
  throw (.failure status)

def requiredFile : Option Path → Step Path
  | some file => return file
  | none => fail missingInput [.error "Error: missing input file"]

def settingsStatus : SettingsError → Nat
  | .unreadable _ .notFound => missingInput
  | _ => unreadableInput

-- The settings of the command line take effect after those of the database.
def settings (arguments : SettingsArguments) (file : Path) : Step Settings := do
  match arguments.databaseDir with
  | none => return arguments.settings
  | some directory =>
    match ← Settings.ofDatabase directory (arguments.databaseFile.getD file) with
    | .ok entry => return entry.merge arguments.settings
    | .error error =>
      fail (settingsStatus error) [⟨.error, "Error: " ++ error.message, error.cause?⟩]

def parsing (mode : Header.ErrorMode) (settings : Settings) : Header.ParseOptions :=
  ⟨mode, settings.macros⟩

def sourceStatus : SourceError → Nat
  | .unreadable _ .notFound => missingInput
  | _ => unreadableInput

def status : GenerationError → Nat
  | .missingInput _ => missingInput
  | .source error => sourceStatus error
  | .selection _ => failedGeneration
  | .artifact (.missingSource _) => missingInput
  | .artifact _ => failedGeneration

def errorNotices (file : Path) : GenerationError → List Notice
  | .source (.header _ _ error) => [.error ("Error: " ++ error.message)]
  | .selection findings => findings.map fun finding =>
      .error ("error[" ++ finding.code ++ "]: " ++ finding.message)
  | error => [⟨.error, "Error (" ++ file.text ++ "): " ++ error.message, error.cause?⟩]

def findingNotices (findings : List Finding) : List Notice :=
  findings.map (fun finding => .info ("[" ++ finding.code ++ "] " ++ finding.message)) ++
    if findings.isEmpty then []
    else [.info (toString findings.length ++ " problem(s) recovered")]

def summary (generated : Generated) : List Notice :=
  match generated with
  | .skipped output => [.info (output.text ++ " is up to date, skipping")]
  | .written output types findings =>
    findingNotices findings ++ [.info ("wrote " ++ toString types ++ " types to " ++ output.text)]
  | .rendered _ types findings =>
    findingNotices findings ++ [.info ("rendered " ++ toString types ++ " types")]

def finish : Generated → Finish
  | .skipped _ => .success ""
  | .written _ _ _ => ⟨0, "", .afterOutput⟩
  | .rendered text _ _ => ⟨0, text, .amongNotices⟩

def request (arguments : GenerateArguments) (input : Path) (settings : Settings) :
    GenerationRequest :=
  { input
    output := arguments.output
    parsing := parsing arguments.mode settings
    selection := arguments.selection
    format := arguments.format
    cpp := arguments.cpp
    gate := arguments.gate
    force := arguments.force }

def generate (arguments : GenerateArguments) : Step Finish := do
  let file ← requiredFile arguments.file
  let settings ← settings arguments.settings file
  match ← (request arguments file settings).generate with
  | .error error => fail (status error) (errorNotices file error)
  | .ok generated =>
    Program.notifyAll (summary generated)
    return finish generated

def dump (arguments : DumpArguments) : Step Finish := do
  let file ← requiredFile arguments.file
  unless ← Program.present file do
    fail missingInput [.error ("Error: input file not found: " ++ file.text)]
  let settings ← settings arguments.settings file
  match ← Source.load (parsing arguments.mode settings) file with
  | .error error => fail (sourceStatus error) (errorNotices file (.source error))
  | .ok tree => return .success (String.ofList (tree.toJson.toText arguments.layout) ++ "\n")

def loadNotice (path : Path) : RegistryError → Notice
  | .duplicate name => .error ("✗ " ++ path.text ++ " - " ++ RegistryError.duplicateMessage name)
  | .load fault =>
    ⟨.error, "✗ " ++ path.text ++ " - failed to load artifact", some (.json fault)⟩

-- Loads artifacts one after another, and says whether all of them could be loaded.
def loadArtifacts (registry : Registry) : List Path → Step (Registry × Bool)
  | [] => return (registry, true)
  | path :: paths => do
    match ← Program.textOf path with
    | .error error =>
      fail missingInput [⟨.error, "Error reading " ++ path.text, some (.file error)⟩]
    | .ok text =>
      let (outcome, registry) := registry.perform (Registry.load text)
      match outcome with
      | .ok count =>
        Program.notifyAll [.info (path.text ++ ": " ++ toString count ++ " types")]
        loadArtifacts registry paths
      | .error error =>
        Program.notifyAll [loadNotice path error]
        return ((← loadArtifacts registry paths).1, false)

def describeMembers (type : TypeDescriptor) : String :=
  let count := fun kind => toString (type.members kind).length
  if type.isEnum then count .enumerator ++ " enumerators"
  else count .field ++ " fields, " ++ count .staticField ++ " static fields, " ++
    count .method ++ " methods"

def describe (type : TypeDescriptor) : String :=
  (if type.isEnum then "enum " else "class ") ++ type.qualifiedName ++ " (" ++
    describeMembers type ++ "; " ++ toString type.pieces.length ++ " meta)\n"

def inspect (artifacts : List Path) : Step Finish := do
  if artifacts.isEmpty then fail missingInput [.error "Error: no artifact given"]
  let (registry, complete) ← loadArtifacts .empty artifacts
  return ⟨if complete then 0 else failedGeneration,
    String.join (registry.types.map describe), .nowhere⟩

def version : String := "reflgen 0.1.0\n"

def usage : String :=
  "Usage: reflgen [-v] [--dbg] generate|dump|inspect [OPTIONS] [FILE]...\n"

def refuse : Arguments.Refusal → Step Finish
  | .invalid => fail unreadableInput [.error "error: invalid command line"]
  | .help => return .success usage
  | .version => return .success version

def isShown (verbose : Bool) (notice : Notice) : Bool := verbose || notice.severity ≠ .info

def ending (step : Step Finish) : Program Finish := do
  match ← step.run with
  | .ok finish => return finish
  | .error finish => return finish

def invoke (invocation : Invocation) : Program Finish :=
  (ending (match invocation.command with
    | .generate arguments => generate arguments
    | .dump arguments => dump arguments
    | .inspect artifacts => inspect artifacts)).filterNotices (isShown invocation.verbose)

-- Carries out a command line.
def run (items : List String) : Program Finish :=
  match Invocation.ofItems items with
  | .ok invocation => invoke invocation
  | .error refusal => ending (refuse refusal)

end CommandLine

end Reflection
