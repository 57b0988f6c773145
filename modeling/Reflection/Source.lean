import Reflection.Declaration.Json
import Reflection.Header.Expansion
import Reflection.Program

namespace Reflection

inductive SourceError where
  | unreadable (path : Path) (error : FileError)
  -- `text` is what the span of the error points into
  | header (path : Path) (text : List Char) (error : Header.ParseError)
  | tree (path : Path) (fault : Json.Fault)

namespace SourceError

def message : SourceError → String
  | unreadable path _ => "cannot read " ++ path.text
  | header path _ error => path.text ++ ": " ++ error.message
  | tree path _ => "invalid declaration tree in " ++ path.text

def cause? : SourceError → Option Cause
  | unreadable _ error => some (.file error)
  | header _ _ _ => none
  | tree _ fault => some (.json fault)

end SourceError

namespace Source

-- Says where in the file an error is that reading recovered from.
def recoveryNotice (path : Path) (text : List Char) (error : Header.ParseError) : Notice :=
  let position := error.span.position text
  .warning (path.text ++ ":" ++ toString position.line ++ ":" ++ toString position.column ++ ": " ++
    error.message)

-- Positions in the notices are those in the text after expansion.
def ofHeader (options : Header.ParseOptions) (path : Path) (text : List Char) :
    Program (Except SourceError DeclarationTree) :=
  let expanded := Header.expand options.macros text
  match Header.parse options.mode expanded with
  | .error error => .done (.error (.header path expanded error))
  | .ok parsed => do
    Program.notifyAll (parsed.recovered.map (recoveryNotice path expanded))
    return .ok parsed.tree

def ofTree (path : Path) (text : List Char) : Except SourceError DeclarationTree :=
  (DeclarationTree.parse text).mapError (.tree path)

def isTree (path : Path) : Bool := path.hasExtension "json"

-- A source file is a header, or a tree written as JSON.
def load (options : Header.ParseOptions) (path : Path) :
    Program (Except SourceError DeclarationTree) := do
  match ← Program.textOf path with
  | .error error => return .error (.unreadable path error)
  | .ok text => if isTree path then return ofTree path text else ofHeader options path text

end Source

end Reflection
