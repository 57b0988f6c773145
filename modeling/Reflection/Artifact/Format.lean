import Reflection.Artifact.Cpp
import Reflection.Descriptor.Json

namespace Reflection

inductive OutputFormat where
  | cpp
  | json
  deriving Repr, DecidableEq

namespace OutputFormat

def lowerAscii (text : String) : String := String.ofList (text.toList.map Char.toLower)

-- A format by name, whatever the case of its letters; the error holds the name in lower case.
def ofName (name : String) : Except String OutputFormat :=
  let name := lowerAscii name
  if name = "cpp" || name = "hxx" || name = "c++" then .ok cpp
  else if name = "json" then .ok json
  else .error name

def unknownMessage (name : String) : String :=
  "unknown output format '" ++ name ++ "' (expected cpp or json)"

end OutputFormat

def Artifact.render (format : OutputFormat) (options : CppOptions) (artifact : Artifact) :
    String :=
  match format with
  | .cpp => artifact.renderCpp options
  | .json => String.ofList artifact.renderJson

end Reflection
