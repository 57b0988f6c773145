import Reflection.Json.Basic

namespace Reflection

-- Why a file cannot be used.
inductive FileError where
  | notFound
  -- a name is looked up in something that is no directory
  | notDirectory
  | isDirectory
  -- the contents are not UTF-8
  | notText
  | failed (reason : String)
  deriving Repr, DecidableEq

def FileError.message : FileError → String
  | notFound => "no such file or directory"
  | notDirectory => "not a directory"
  | isDirectory => "is a directory"
  | notText => "not valid UTF-8"
  | failed reason => reason

def Json.Fault.message : Json.Fault → String
  | .invalid => "not valid JSON"
  | .mismatch => "not of the expected shape"
  | .truncated => "unexpected end of text"

-- What an error goes back to, where that lies outside of this library.
inductive Cause where
  | file (error : FileError)
  | json (fault : Json.Fault)
  deriving Repr, DecidableEq

def Cause.message : Cause → String
  | file error => error.message
  | json fault => fault.message

inductive Severity where
  | error
  | warning
  -- shown on request only
  | info
  deriving Repr, DecidableEq

structure Notice where
  severity : Severity
  message : String
  cause : Option Cause
  deriving Repr, DecidableEq

namespace Notice

def error (message : String) : Notice := ⟨.error, message, none⟩

def warning (message : String) : Notice := ⟨.warning, message, none⟩

def info (message : String) : Notice := ⟨.info, message, none⟩

def text (notice : Notice) : String :=
  match notice.cause with
  | none => notice.message
  | some cause => notice.message ++ ": " ++ cause.message

end Notice

end Reflection
