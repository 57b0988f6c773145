import Reflection.Artifact.Format
import Reflection.Freshness
import Reflection.Selection
import Reflection.Source

namespace Reflection

structure GenerationRequest where
  input : Path
  -- without one the artifact is only rendered
  output : Option Path
  parsing : Header.ParseOptions
  selection : SelectionOptions
  format : OutputFormat
  cpp : CppOptions
  gate : Gate
  -- generates even if the artifact is up to date
  force : Bool

inductive GenerationError where
  | missingInput (path : Path)
  | source (error : SourceError)
  | selection (findings : List Finding)
  | artifact (error : ArtifactError)

namespace GenerationError

def message : GenerationError → String
  | missingInput path => "input file not found: " ++ path.text
  | source error => error.message
  | selection findings => describeFailure findings
  | artifact error => error.message

def cause? : GenerationError → Option Cause
  | missingInput _ => none
  | source error => error.cause?
  | selection _ => none
  | artifact error => error.cause?

end GenerationError

inductive Generated where
  | skipped (output : Path)
  | written (output : Path) (types : Nat) (findings : List Finding)
  | rendered (text : String) (types : Nat) (findings : List Finding)

-- The artifact names its source without directories.
def sourceName (path : Path) : String :=
  match path.fileName? with
  | some name => String.ofList name
  | none => path.text

namespace GenerationRequest

abbrev Step (α : Type) := ExceptT GenerationError Program α

def inputExists (request : GenerationRequest) : Step Unit := do
  unless ← Program.present request.input do throw (.missingInput request.input)

-- Is there an output that need not be generated again?
def isUpToDate (request : GenerationRequest) (output : Path) : Step Bool := do
  if request.force then return false
  let freshness ← (Freshness.check request.gate request.input output).orThrow .artifact
  return freshness = .upToDate

def load (request : GenerationRequest) : Step DeclarationTree :=
  (Source.load request.parsing request.input).orThrow .source

def select (request : GenerationRequest) (tree : DeclarationTree) : Step Selected := do
  let selection := tree.select request.selection
  Program.notifyAll (selection.remarks.map fun finding => .info finding.remark)
  match selection.outcome with
  | .ok selected => return selected
  | .error findings => throw (.selection findings)

-- The digest to be recorded, of the source as it is now.
def digest (request : GenerationRequest) : Step (Option String) := do
  match request.gate with
  | .timestamp => return none
  | .contentHash =>
    let bytes ← (Program.bytesOf request.input).orThrow fun error =>
      .source (.unreadable request.input error)
    return some (sourceHash bytes)

def render (request : GenerationRequest) (hash : Option String) (selected : Selected) : String :=
  Artifact.render request.format request.cpp ⟨sourceName request.input, hash, selected.types⟩

def write (output : Path) (text : String) : Step Unit :=
  (writeArtifact output text).orThrow .artifact

-- Generates whether or not the output is up to date.
def regenerate (request : GenerationRequest) : Step Generated := do
  let selected ← request.select (← request.load)
  let text := request.render (← request.digest) selected
  match request.output with
  | none => return .rendered text selected.types.length selected.findings
  | some output =>
    write output text
    return .written output selected.types.length selected.findings

-- With an output the gate comes first, and nothing is written before the artifact has been
-- rendered.
def steps (request : GenerationRequest) : Step Generated := do
  request.inputExists
  match request.output with
  | none => request.regenerate
  | some output =>
    if ← request.isUpToDate output then
      Program.notifyAll [.info (output.text ++ " is up to date")]
      return .skipped output
    else request.regenerate

def generate (request : GenerationRequest) : Program (Except GenerationError Generated) :=
  request.steps.run

end GenerationRequest

-- Generates from the text of a header. Errors in it are passed over.
def generateFromText (sourceName text : String) (selection : SelectionOptions)
    (format : OutputFormat) : Except GenerationError String := do
  match Header.parse .tolerant text.toList with
  | .error error => throw (.source (.header ⟨"<input>"⟩ [] error))
  | .ok parsed =>
    match (parsed.tree.select selection).outcome with
    | .error findings => throw (.selection findings)
    | .ok selected =>
      return Artifact.render format .default ⟨sourceName, none, selected.types⟩

end Reflection
