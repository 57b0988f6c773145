import Reflection.Digest
import Reflection.Program
import Reflection.RecordedHash

namespace Reflection

-- How an artifact that exists is judged.
inductive Gate where
  -- fresh if it was modified after the source
  | timestamp
  -- fresh if it records the digest of the source
  | contentHash
  deriving Repr, DecidableEq

inductive Freshness where
  | missing
  | stale
  | upToDate
  deriving Repr, DecidableEq

inductive ArtifactError where
  | unwritable (path : Path) (error : FileError)
  | unreadable (path : Path) (error : FileError)
  | missingSource (path : Path)
  deriving Repr, DecidableEq

namespace ArtifactError

def message : ArtifactError → String
  | unwritable path _ => "failed to write '" ++ path.text ++ "'"
  | unreadable path _ => "failed to read '" ++ path.text ++ "'"
  | missingSource path => "source file not found: " ++ path.text

def cause? : ArtifactError → Option Cause
  | unwritable _ error => some (.file error)
  | unreadable _ error => some (.file error)
  | missingSource _ => none

def ofSource (source : Path) : FileError → ArtifactError
  | .notFound => missingSource source
  | error => unreadable source error

end ArtifactError

namespace Freshness

def ofBool (fresh : Bool) : Freshness := if fresh then upToDate else stale

def ofTimes (source artifact : Timestamp) : Freshness := ofBool (source < artifact)

def ofContents (source : ByteArray) (artifact : List Char) : Freshness :=
  ofBool (recordedHash artifact = some (sourceHash source).toList)

-- Judges by the contents of both.
def byContents (source artifact : Path) : Program (Except ArtifactError Freshness) := do
  match ← Program.bytesOf source with
  | .error error => return .error (.ofSource source error)
  | .ok bytes =>
    match ← Program.textOf artifact with
    | .error error => return .error (.unreadable artifact error)
    | .ok text => return .ok (ofContents bytes text)

def check (gate : Gate) (source artifact : Path) : Program (Except ArtifactError Freshness) := do
  match ← Program.timeOf source with
  | .error error => return .error (.ofSource source error)
  | .ok sourceTime =>
    match ← Program.timeOf artifact with
    | .error .notFound => return .ok missing
    | .error error => return .error (.unreadable artifact error)
    | .ok artifactTime =>
      match gate with
      | .timestamp => return .ok (ofTimes sourceTime artifactTime)
      | .contentHash => byContents source artifact

end Freshness

def writeArtifact (path : Path) (text : String) : Program (Except ArtifactError Unit) :=
  .write path text fun answer => .done (answer.mapError (.unwritable path))

end Reflection
